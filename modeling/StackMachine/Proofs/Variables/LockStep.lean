import StackMachine.Proofs.Prelude
import StackMachine.Proofs.Variables.Effects

/-!
# The assembler and the machine in lock step

While actions are emitted the assembler keeps track of the visible variables, and while their code
runs the machine keeps their values. Both follow the environment of the actions: the scopes of the
assembler are the environment without its values, the variables and marks of the machine are the
environment without its names. One action keeps this (`LockStep.action`), and so does every sequence
(`LockStep.actions`).
-/

namespace StackMachine

/-! ## Emitting adds instructions -/

section

variable {a b : Assembly} {p : Program}

theorem Assembly.resolve_ok {name : String} {binding : Binding}
    (h : a.resolve name = .ok binding) : a.scopes.resolve? name = some binding := by
  unfold Assembly.resolve at h
  split at h
  · next found hfound =>
    obtain rfl := Except.ok.inj h
    exact hfound
  · contradiction

/-- An index that a name resolves to is an operand as it is. -/
theorem toNat_index {s : VariableState} {name : String} {binding : Binding}
    (hresolve : s.environment.scopes.resolve? name = some binding)
    (hsize : s.environment.size < 2 ^ 64) :
    (Argument.u64 (UInt64.ofNat binding.index)).toNat = binding.index ∧
      binding.index < s.environment.size := by
  obtain ⟨value, -, hslot⟩ := Environment.lookup_of_resolve? hresolve
  have hlt : binding.index < s.environment.size := by
    rw [← Environment.size_slots]
    exact (Array.getElem?_eq_some_iff.1 hslot).1
  refine ⟨?_, hlt⟩
  simp only [Argument.toNat, Argument.toNat?, Option.getD_some, UInt64.toNat_ofNat']
  exact Nat.mod_eq_of_lt (Nat.lt_trans hlt hsize)

/-- A variable that a name stands for is pushed. -/
theorem exists_turns_load {s : VariableState} {name : String} {binding : Binding}
    (hresolve : a.resolve name = .ok binding)
    (hemit : a.emitWith .load (.u64 (UInt64.ofNat binding.index)) = .ok b)
    (hscopes : a.scopes = s.environment.scopes) (hsize : s.environment.size < 2 ^ 64) :
    ∃ v, s.environment.lookup name = some v ∧
      a.Adds b .load (.u64 (UInt64.ofNat binding.index)) ∧
      ∀ p, (⟨a.position, .load, .u64 (UInt64.ofNat binding.index)⟩ : Instruction).Turns p s
        (s.push v s.heap) := by
  have hfound := Assembly.resolve_ok hresolve
  rw [hscopes] at hfound
  obtain ⟨v, hlookup, hslot⟩ := Environment.lookup_of_resolve? hfound
  obtain ⟨hindex, -⟩ := toNat_index hfound hsize
  refine ⟨v, hlookup, Assembly.adds_of_emitWith hemit, fun p => ?_⟩
  refine Instruction.turns_push rfl fun m hm => Machine.loadVariable_eq ?_
  rw [hindex, hm.slots]
  exact hslot

/-- A value that is not a function: one instruction is added, and it pushes the value of the source.
-/
theorem Source.exists_turns {source : Source} (hemit : source.emit a = .ok b)
    (hone : ∀ arity address, source ≠ .function arity address)
    {s : VariableState} (hscopes : a.scopes = s.environment.scopes)
    (hsize : s.environment.size < 2 ^ 64) :
    ∃ op arg v heap, a.Adds b op arg ∧ source.value? s = some (v, heap) ∧
      ∀ p, b.Below p → (⟨a.position, op, arg⟩ : Instruction).Turns p s (s.push v heap) := by
  cases source with
  | nil =>
    exact ⟨_, _, _, _, Assembly.adds_of_emit hemit, rfl,
      fun p _ => Instruction.turns_push rfl fun m _ => rfl⟩
  | bool b =>
    cases b <;>
    exact ⟨_, _, _, _, Assembly.adds_of_emit hemit, rfl,
      fun p _ => Instruction.turns_push rfl fun m _ => rfl⟩
  | int n =>
    exact ⟨_, _, _, _, Assembly.adds_of_emitWith hemit, rfl,
      fun p _ => Instruction.turns_push rfl fun m _ => rfl⟩
  | number x =>
    exact ⟨_, _, _, _, Assembly.adds_of_emitWith hemit, rfl,
      fun p _ => Instruction.turns_push rfl fun m _ => rfl⟩
  | text t =>
    refine ⟨_, _, _, _, Assembly.adds_of_emitWith hemit, rfl, fun p hbelow => ?_⟩
    refine Instruction.turns_make (f := (·.newHashedString t (hashText t))) rfl fun m hm hp => ?_
    exact Machine.pushString_eq (hp ▸ Assembly.getElem?_of_emitWith_text hemit hbelow)
  | function arity address => exact absurd rfl (hone arity address)
  | array =>
    refine ⟨_, _, _, _, Assembly.adds_of_emitWith hemit, rfl, fun p _ => ?_⟩
    exact Instruction.turns_make (f := (·.newArray #[])) rfl fun m hm _ => hm.makeArray_eq
  | table flagged =>
    cases flagged
    · refine ⟨_, _, _, _, Assembly.adds_of_emitWith hemit, rfl, fun p _ => ?_⟩
      exact Instruction.turns_make (f := (·.newTable {})) rfl fun m hm _ => hm.makeTable_eq false
    · refine ⟨_, _, _, _, Assembly.adds_of_emitWith hemit, rfl, fun p _ => ?_⟩
      exact Instruction.turns_make (f := (·.newTable {})) rfl fun m hm _ => hm.makeTable_eq true
  | top =>
    exact ⟨_, _, _, _, Assembly.adds_of_emit hemit, rfl,
      fun p _ => Instruction.turns_push rfl fun m hm => hm.dup_eq⟩
  | current name =>
    obtain ⟨binding, hresolve, hload⟩ := exists_of_bind_ok hemit
    obtain ⟨v, hlookup, hadds, hturns⟩ := exists_turns_load hresolve hload hscopes hsize
    refine ⟨_, _, v, s.heap, hadds, ?_, fun p _ => hturns p⟩
    rw [Source.value?, hlookup]
    rfl

/-! ### Growth -/

theorem Source.grows {source : Source} (hemit : source.emit a = .ok b) : a.Grows b := by
  cases source with
  | nil | bool _ | top => exact (Assembly.adds_of_emit hemit).grows
  | int _ | number _ | text _ | array | table _ => exact (Assembly.adds_of_emitWith hemit).grows
  | function arity address =>
    obtain ⟨c, harity, hfunction⟩ := exists_of_bind_ok hemit
    exact (Assembly.adds_of_emitWith harity).grows.trans (Assembly.adds_of_emitWith hfunction).grows
  | current name =>
    obtain ⟨binding, -, hload⟩ := exists_of_bind_ok hemit
    exact (Assembly.adds_of_emitWith hload).grows

theorem Action.grows {action : Action} (hemit : action.emit a = .ok b) : a.Grows b := by
  cases action with
  | enterScope =>
    have henter : Assembly.emit { a with scopes := a.scopes.enter } .enterScope = .ok b := hemit
    exact (a.grows_scopes _).trans (Assembly.adds_of_emit henter).grows
  | exitScope =>
    obtain ⟨scopes, -, rfl⟩ := Assembly.exitScope_ok hemit
    have hleave : Assembly.emit { a with scopes } .leaveScope = .ok _ := rfl
    exact (a.grows_scopes scopes).trans (Assembly.adds_of_emit hleave).grows
  | define name isMutable source =>
    obtain ⟨a₁, hpush, hrest⟩ := exists_of_bind_ok hemit
    obtain ⟨⟨index, a₂⟩, hdeclare, hdefine⟩ := exists_of_bind_ok hrest
    obtain ⟨-, -, rfl⟩ := Assembly.declare_ok hdeclare
    exact ((Source.grows hpush).trans (a₁.grows_scopes _)).trans
      (Assembly.adds_of_emit hdefine).grows
  | assign name source =>
    obtain ⟨a₁, hpush, hrest⟩ := exists_of_bind_ok hemit
    obtain ⟨binding, -, hstore⟩ := exists_of_bind_ok hrest
    exact (Source.grows hpush).trans (Assembly.adds_of_emitWith hstore).grows
  | read name =>
    obtain ⟨binding, -, hload⟩ := exists_of_bind_ok hemit
    exact (Assembly.adds_of_emitWith hload).grows

theorem Action.grows_all {actions : List Action} (hemit : emitAll a actions = .ok b) :
    a.Grows b := by
  induction actions generalizing a with
  | nil =>
    obtain rfl := Except.ok.inj hemit
    exact Assembly.Grows.refl a
  | cons action actions ih =>
    rw [emitAll, List.foldlM_cons] at hemit
    obtain ⟨c, hfirst, hrest⟩ := exists_of_bind_ok hemit
    exact (Action.grows hfirst).trans (ih hrest)

end

/-! ## Lock step -/

/-- Where a run stands: at an address of the program, in a variable state. -/
structure Run.Stands (config : Config) (p : Program) (address : Nat) (s : VariableState) (r : Run) :
    Prop where
  shows : r.machine.Shows s
  ip : r.machine.ip = address
  program : r.machine.program = p
  limits : r.machine.config = config
  heard : Run.Heard config r.sink

/-- **The lock step** of an assembler, a run of the program that it begins and the variable state of
both, with room for some more actions. -/
structure LockStep (config : Config) (p : Program) (more : Nat) (a : Assembly) (s : VariableState)
    (r : Run) : Prop where
  stands : r.Stands config p a.position s
  scopes : a.scopes = s.environment.scopes
  budget : config.maxSteps = none
  room : s.reads.length + more + 2 < config.maxStack
  size : s.environment.size + more < 2 ^ 64

variable {config : Config} {p : Program} {a b c : Assembly} {s t : VariableState} {r r' : Run}
  {op : Opcode} {arg : Argument} {more : Nat}

/-- One instruction: the run goes on after it, in the state that it turns to. -/
theorem Run.Stands.instruction {address : Nat} (h : r.Stands config p address s)
    (hbudget : config.maxSteps = none) (hroom : s.reads.length + 1 < config.maxStack)
    (hadds : a.Adds b op arg) (haddress : address = a.position) (hbelow : b.Below p)
    (hturns : (⟨a.position, op, arg⟩ : Instruction).Turns p s t) :
    ∃ r', r.Leads r' ∧ Run.Stands config p b.position t r' := by
  subst haddress
  have hcounted : Machine.Shows { r.machine with steps := r.machine.steps + 1 } s :=
    { h.shows with }
  have hspace : r.machine.stack.size < r.machine.config.maxStack := by
    rw [h.shows.size_stack, h.limits]
    exact hroom
  obtain ⟨n, hrun, hshows, hprogram, hlimits⟩ := hturns _ hcounted h.program hspace
  have hdecode : decode r.machine.program.code r.machine.ip = .ok ⟨a.position, op, arg⟩ := by
    rw [h.program, h.ip]
    exact hadds.decode hbelow
  obtain ⟨sink, hleads, hheard⟩ := Run.leads_of_execute (h.limits ▸ h.heard)
    (by rw [h.limits, hbudget]) hdecode hrun hlimits
  have hconfig : n.config = config := hlimits.trans h.limits
  refine ⟨_, hleads, { hshows with }, ?_, hprogram, hconfig, hconfig ▸ hheard⟩
  exact hadds.position.symm

namespace LockStep

/-- The next lock step, when an action read at most one value and made at most one variable. -/
theorem next (h : LockStep config p (more + 1) a s r) (hstands : r'.Stands config p b.position t)
    (hscopes : b.scopes = t.environment.scopes) (hreads : t.reads.length ≤ s.reads.length + 1)
    (hcount : t.environment.size ≤ s.environment.size + 1) : LockStep config p more b t r' := by
  have hroom := h.room
  have hsize := h.size
  exact ⟨hstands, hscopes, h.budget, by omega, by omega⟩

/-- The first instruction of an action. -/
theorem instruction (h : LockStep config p (more + 1) a s r) (hadds : b.Adds c op arg)
    (haddress : a.position = b.position) (hbelow : c.Below p)
    (hturns : (⟨b.position, op, arg⟩ : Instruction).Turns p s t) :
    ∃ r', r.Leads r' ∧ Run.Stands config p c.position t r' := by
  have hroom := h.room
  exact h.stands.instruction h.budget (by omega) hadds haddress hbelow hturns

/-- A later instruction of an action, when a value was pushed. -/
theorem instruction_push (h : LockStep config p (more + 1) a s r) {v : Value} {heap : Heap}
    {address : Nat} (hstands : r'.Stands config p address (s.push v heap)) (hadds : b.Adds c op arg)
    (haddress : address = b.position) (hbelow : c.Below p)
    (hturns : (⟨b.position, op, arg⟩ : Instruction).Turns p (s.push v heap) t) :
    ∃ r'', r'.Leads r'' ∧ Run.Stands config p c.position t r'' := by
  have hroom : (s.push v heap).reads.length + 1 < config.maxStack := by
    have := h.room
    rw [VariableState.length_push]
    omega
  exact hstands.instruction h.budget hroom hadds haddress hbelow hturns

/-! ## What each action keeps -/

/-- **A value is pushed**: the run goes on with the value of the source on the stack. -/
theorem push {source : Source} (h : LockStep config p (more + 1) a s r)
    (hemit : source.emit a = .ok b) (hbelow : b.Below p) :
    ∃ v heap r', source.value? s = some (v, heap) ∧ r.Leads r' ∧
      r'.Stands config p b.position (s.push v heap) ∧ b.scopes = a.scopes := by
  have hsize : s.environment.size < 2 ^ 64 := Nat.lt_of_add_right_lt h.size
  by_cases hone : ∀ arity address, source ≠ .function arity address
  · obtain ⟨op, arg, v, heap, hadds, hvalue, hturns⟩ :=
      Source.exists_turns hemit hone h.scopes hsize
    obtain ⟨r', hleads, hstands⟩ := h.instruction hadds rfl hbelow (hturns p hbelow)
    exact ⟨v, heap, r', hvalue, hleads, hstands, hadds.scopes⟩
  · -- The arity is pushed first, and the function takes its place.
    push Not at hone
    obtain ⟨arity, address, rfl⟩ := hone
    obtain ⟨c, harity, hfunction⟩ := exists_of_bind_ok hemit
    have hadds₁ := Assembly.adds_of_emitWith harity
    have hadds₂ := Assembly.adds_of_emitWith hfunction
    obtain ⟨r₁, hleads₁, hstands₁⟩ := h.instruction hadds₁ rfl (hadds₂.grows.below p hbelow)
      (Instruction.turns_push (v := .number (.ofNat arity.toNat)) rfl fun m _ => rfl)
    obtain ⟨r₂, hleads₂, hstands₂⟩ := h.instruction_push hstands₁ hadds₂ rfl hbelow
      (Instruction.turns_pushFunction rfl arity)
    refine ⟨_, _, r₂, ?_, hleads₁.trans hleads₂, hstands₂, hadds₂.scopes.trans hadds₁.scopes⟩
    exact congrArg (fun x => some (Value.function ⟨x, arity⟩, s.heap))
      (UInt64.ofNat_toNat (x := address)).symm

theorem enterScope (h : LockStep config p (more + 1) a s r) (hemit : a.enterScope = .ok b)
    (hbelow : b.Below p) :
    ∃ r', r.Leads r' ∧
      LockStep config p more b { s with environment := .scope s.environment } r' := by
  have henter : Assembly.emit { a with scopes := a.scopes.enter } .enterScope = .ok b := hemit
  have hadds := Assembly.adds_of_emit henter
  obtain ⟨r', hleads, hstands⟩ := h.instruction hadds rfl hbelow
    (Instruction.turns_enterScope rfl)
  refine ⟨r', hleads, h.next hstands ?_ (Nat.le_succ _) (Nat.le_succ _)⟩
  rw [hadds.scopes, h.scopes]
  rfl

theorem exitScope (h : LockStep config p (more + 1) a s r) (hemit : a.exitScope = .ok b)
    (hbelow : b.Below p) :
    ∃ e r', s.environment.leave? = some e ∧ r.Leads r' ∧
      LockStep config p more b { s with environment := e } r' := by
  unfold Assembly.exitScope at hemit
  split at hemit
  · next scopes hexit =>
    rw [h.scopes, Environment.exit?_scopes] at hexit
    obtain ⟨e, he, rfl⟩ := Option.map_eq_some_iff.1 hexit
    have hadds := Assembly.adds_of_emit hemit
    obtain ⟨r', hleads, hstands⟩ := h.instruction hadds rfl hbelow
      (Instruction.turns_leaveScope rfl he)
    obtain ⟨-, -, hle⟩ := Environment.marks_of_leave? he
    exact ⟨e, r', he, hleads,
      h.next hstands hadds.scopes (Nat.le_succ _) (Nat.le_succ_of_le hle)⟩
  · contradiction

theorem define {source : Source} {name : String} {isMutable : Bool} {index : Nat}
    (h : LockStep config p (more + 1) a s r) {a₁ a₂ : Assembly} (hpush : source.emit a = .ok a₁)
    (hdeclare : a₁.declare name isMutable = .ok (index, a₂)) (hdefine : a₂.emit .define = .ok b)
    (hbelow : b.Below p) :
    ∃ v heap r', source.value? s = some (v, heap) ∧ r.Leads r' ∧
      LockStep config p more b
        { s with environment := .declared ⟨name, isMutable⟩ v s.environment, heap } r' := by
  obtain ⟨-, -, rfl⟩ := Assembly.declare_ok hdeclare
  have hadds := Assembly.adds_of_emit hdefine
  have hbelow₁ := (Assembly.grows_scopes a₁ _).below p (hadds.grows.below p hbelow)
  obtain ⟨v, heap, r₁, hvalue, hleads₁, hstands₁, hsame⟩ := h.push hpush hbelow₁
  -- Declaring a variable emits nothing, so control stands at the instruction that defines it.
  obtain ⟨r₂, hleads₂, hstands₂⟩ := h.instruction_push hstands₁ hadds rfl hbelow
    (Instruction.turns_define rfl ⟨name, isMutable⟩)
  refine ⟨v, heap, r₂, hvalue, hleads₁.trans hleads₂,
    h.next hstands₂ ?_ (Nat.le_succ _) (Nat.le_refl _)⟩
  rw [hadds.scopes, hsame, h.scopes]
  rfl

theorem assign {source : Source} {name : String} {binding : Binding}
    (h : LockStep config p (more + 1) a s r) {a₁ : Assembly} (hpush : source.emit a = .ok a₁)
    (hresolve : a₁.resolve name = .ok binding)
    (hstore : a₁.emitWith .store (.u64 (UInt64.ofNat binding.index)) = .ok b)
    (hbelow : b.Below p) :
    ∃ v heap e r', source.value? s = some (v, heap) ∧ s.environment.assign? name v = some e ∧
      r.Leads r' ∧ LockStep config p more b { s with environment := e, heap } r' := by
  have hadds := Assembly.adds_of_emitWith hstore
  obtain ⟨v, heap, r₁, hvalue, hleads₁, hstands₁, hsame⟩ :=
    h.push hpush (hadds.grows.below p hbelow)
  have hfound := Assembly.resolve_ok hresolve
  rw [hsame, h.scopes] at hfound
  obtain ⟨e, hassign, hslots, hnames, hmarks, hcount⟩ := Environment.assign?_of_resolve? v hfound
  obtain ⟨hindex, hlt⟩ := toNat_index hfound (Nat.lt_of_add_right_lt h.size)
  obtain ⟨r₂, hleads₂, hstands₂⟩ := h.instruction_push hstands₁ hadds rfl hbelow
    (Instruction.turns_store rfl (hindex.symm ▸ hlt) (hindex.symm ▸ hslots) hmarks)
  refine ⟨v, heap, e, r₂, hvalue, hassign, hleads₁.trans hleads₂,
    h.next hstands₂ ?_ (Nat.le_succ _) (Nat.le_succ_of_le (Nat.le_of_eq hcount))⟩
  rw [hadds.scopes, hsame, h.scopes, hnames]

theorem read {name : String} {binding : Binding} (h : LockStep config p (more + 1) a s r)
    (hresolve : a.resolve name = .ok binding)
    (hload : a.emitWith .load (.u64 (UInt64.ofNat binding.index)) = .ok b) (hbelow : b.Below p) :
    ∃ v r', s.environment.lookup name = some v ∧ r.Leads r' ∧
      LockStep config p more b (s.push v s.heap) r' := by
  obtain ⟨v, hlookup, hadds, hturns⟩ :=
    exists_turns_load hresolve hload h.scopes (Nat.lt_of_add_right_lt h.size)
  obtain ⟨r', hleads, hstands⟩ := h.instruction hadds rfl hbelow (hturns p)
  refine ⟨v, r', hlookup, hleads,
    h.next hstands ?_ (Nat.le_of_eq (s.length_push _ _)) (Nat.le_succ _)⟩
  rw [hadds.scopes, h.scopes]
  rfl

/-! ## Any number of actions -/

/-- **One action keeps the lock step.** It means something, and the run gets past its
instructions. -/
theorem action {action : Action} (h : LockStep config p (more + 1) a s r)
    (hemit : action.emit a = .ok b) (hbelow : b.Below p) :
    ∃ t r', action.perform? s = some t ∧ r.Leads r' ∧ LockStep config p more b t r' := by
  cases action with
  | enterScope =>
    obtain ⟨r', hleads, hnext⟩ := h.enterScope hemit hbelow
    exact ⟨_, r', rfl, hleads, hnext⟩
  | exitScope =>
    obtain ⟨e, r', he, hleads, hnext⟩ := h.exitScope hemit hbelow
    refine ⟨_, r', ?_, hleads, hnext⟩
    rw [Action.perform?, he]
    rfl
  | define name isMutable source =>
    obtain ⟨a₁, hpush, hrest⟩ := exists_of_bind_ok hemit
    obtain ⟨⟨index, a₂⟩, hdeclare, hdefine⟩ := exists_of_bind_ok hrest
    obtain ⟨v, heap, r', hvalue, hleads, hnext⟩ := h.define hpush hdeclare hdefine hbelow
    refine ⟨_, r', ?_, hleads, hnext⟩
    rw [Action.perform?, hvalue]
    rfl
  | assign name source =>
    obtain ⟨a₁, hpush, hrest⟩ := exists_of_bind_ok hemit
    obtain ⟨binding, hresolve, hstore⟩ := exists_of_bind_ok hrest
    obtain ⟨v, heap, e, r', hvalue, hassign, hleads, hnext⟩ :=
      h.assign hpush hresolve hstore hbelow
    refine ⟨_, r', ?_, hleads, hnext⟩
    rw [Action.perform?, hvalue]
    show (s.environment.assign? name v).bind _ = _
    rw [hassign]
    rfl
  | read name =>
    obtain ⟨binding, hresolve, hload⟩ := exists_of_bind_ok hemit
    obtain ⟨v, r', hlookup, hleads, hnext⟩ := h.read hresolve hload hbelow
    refine ⟨_, r', ?_, hleads, hnext⟩
    rw [Action.perform?, hlookup]
    rfl

/-- **Actions keep the lock step**, one after another. -/
theorem actions {actions : List Action} (h : LockStep config p actions.length a s r)
    (hemit : Action.emitAll a actions = .ok b) (hbelow : b.Below p) :
    ∃ t r', Action.performAll? s actions = some t ∧ r.Leads r' ∧ LockStep config p 0 b t r' := by
  induction actions generalizing a s r with
  | nil =>
    obtain rfl := Except.ok.inj hemit
    exact ⟨s, r, rfl, Run.Leads.refl r, h⟩
  | cons action actions ih =>
    rw [Action.emitAll, List.foldlM_cons] at hemit
    obtain ⟨c, hfirst, hrest⟩ := exists_of_bind_ok hemit
    obtain ⟨t₁, r₁, hperform, hleads, hnext⟩ :=
      h.action hfirst ((Action.grows_all hrest).below p hbelow)
    obtain ⟨t, r', hperform', hleads', hlast⟩ := ih hnext hrest
    refine ⟨t, r', ?_, hleads.trans hleads', hlast⟩
    rw [Action.performAll?, List.foldlM_cons, hperform]
    exact hperform'

end LockStep

/-- The code of actions is finished as it is, because it has no labels. -/
theorem Assembly.finish_of_grows {a : Assembly} (h : Grows {} a) :
    a.finish = .ok { code := a.code, strings := a.strings } := by
  rw [finish, h.labels]
  rfl

/-- **The assembler and the machine agree on variables.** When actions are emitted without an error,
the program is finished, and every run of it ends well that has no budget, a trace that is accepted
if there is one, and a stack that may hold one value for each action and more than two beside. The
machine is then in the state that the actions mean: each value that was read is what was last stored
in the variable that the name stood for, and there are as many variables as the assembler sees. The
limit of a stack is a machine word. -/
theorem variables_in_lock_step {actions : List Action} {a : Assembly}
    (hemit : Action.emitAll {} actions = .ok a) (config : Config) (sink : Sink)
    (hbudget : config.maxSteps = none) (hroom : actions.length + 2 < config.maxStack)
    (hword : config.maxStack < 2 ^ 64) (hheard : Run.Heard config sink) :
    ∃ p s n o, a.finish = .ok p ∧ Action.performAll? {} actions = some s ∧
      Run.advance ⟨.start config p, sink⟩ n = .inr o ∧
      o.result = .ok o.machine.results ∧ o.machine.Shows s ∧
      o.machine.slots.size = a.scopes.visible.length := by
  have hgrows := Action.grows_all hemit
  have hbelow : a.Below { code := a.code, strings := a.strings } :=
    ⟨List.prefix_refl _, List.prefix_refl _⟩
  have hbegin : LockStep config { code := a.code, strings := a.strings } actions.length {} {}
      ⟨.start config { code := a.code, strings := a.strings }, sink⟩ := {
    stands := ⟨⟨rfl, rfl, rfl, rfl, rfl⟩, rfl, rfl, rfl, hheard⟩
    scopes := rfl
    budget := hbudget
    room := by simpa using hroom
    size := by
      rw [Environment.size]
      omega }
  obtain ⟨s, r, hperform, hleads, hlast⟩ := hbegin.actions hemit hbelow
  have hend : ¬r.machine.ip < r.machine.program.code.size := by
    rw [hlast.stands.ip, hlast.stands.program]
    exact Nat.lt_irrefl _
  obtain ⟨n, hn⟩ := hleads.exists_finish hend
  refine ⟨_, s, n, r.finish, Assembly.finish_of_grows hgrows, hperform, hn, rfl,
    hlast.stands.shows, ?_⟩
  show r.machine.slots.size = _
  rw [hlast.stands.shows.slots, Environment.size_slots, hlast.scopes, Environment.length_visible]

/-- A variable is shadowed in a scope, assigned there and read inside and outside. -/
theorem shadowed_variable_in_lock_step :
    let actions : List Action := [
      .define "x" false (.int 1), .enterScope, .define "x" true .nil, .assign "x" (.int 3),
      .read "x", .exitScope, .read "x"]
    ∃ a p n o, Action.emitAll {} actions = .ok a ∧ a.finish = .ok p ∧
      Run.advance ⟨.start {} p, {}⟩ n = .inr o ∧
      o.machine.stack = #[.nil, .number (.ofNat 3), .number (.ofNat 1)] ∧
      o.machine.slots.size = a.scopes.visible.length := by
  intro actions
  obtain ⟨a, ha⟩ : ∃ a, Action.emitAll {} actions = .ok a := ⟨_, rfl⟩
  obtain ⟨p, s, n, o, hp, hperform, hn, -, hshows, hcount⟩ :=
    variables_in_lock_step ha {} {} rfl (by decide) (by decide) nofun
  have hreads : (Action.performAll? {} actions).map VariableState.reads =
      some [.number (.ofNat 3), .number (.ofNat 1)] := rfl
  rw [hperform] at hreads
  refine ⟨a, p, n, o, ha, hp, hn, ?_, hcount⟩
  rw [hshows.stack, Option.some.inj hreads]
  rfl

end StackMachine
