import StackMachine.Machine.Run
import StackMachine.Proofs.Machine.StackEffect
import StackMachine.Proofs.Value.Past

/-!
# What instructions do not see

Whether a trace is written and how many steps are allowed concerns the run of a machine, not its
instructions; where payloads are kept is decided by the allocator; and the containers with which a
heap began were made by an earlier run. In other surroundings a machine executes every instruction
in the same way and is left in those surroundings (`Machine.execute_within`), but for the one that
shows an identity, which does so only where it shows the same. The rules follow the way computations
are built. Two runs in different surroundings can therefore be compared state by state.
-/

namespace StackMachine

/-! ## Surroundings -/

/-- A change of the settings, but for the height that is allowed to the stack. -/
structure Resetting where
  trace : Bool → Bool := id
  maxSteps : Option Nat → Option Nat := id
  addresses : Addresses → Addresses := id

/-- The settings after such a change. -/
def Config.under (config : Config) (c : Resetting) : Config :=
  { config with
    trace := c.trace config.trace, maxSteps := c.maxSteps config.maxSteps
    addresses := c.addresses config.addresses }

@[simp] theorem Config.maxStack_under (config : Config) (c : Resetting) :
    (config.under c).maxStack = config.maxStack := rfl

/-- The machine under other settings. -/
def Machine.under (m : Machine) (c : Resetting) : Machine :=
  { m with config := m.config.under c }

/-- The machine with its values and its heap past another heap. -/
def Machine.past (j : Heap) (m : Machine) : Machine :=
  { m with
    stack := m.stack.map (Value.past j), slots := m.slots.map (Value.past j)
    heap := m.heap.past j }

/-- What is around a run: the settings, as they are changed, and the heap that was there before. -/
structure Surroundings where
  settings : Resetting := {}
  older : Heap := {}

/-- The machine in such surroundings. -/
def Machine.within (w : Surroundings) (m : Machine) : Machine :=
  (m.under w.settings).past w.older

variable {w : Surroundings} {j : Heap}

namespace Machine

variable (m : Machine)

@[simp] theorem program_within : (m.within w).program = m.program := rfl

@[simp] theorem stack_within : (m.within w).stack = m.stack.map (Value.past w.older) := rfl

@[simp] theorem frames_within : (m.within w).frames = m.frames := rfl

@[simp] theorem heap_within : (m.within w).heap = m.heap.past w.older := rfl

@[simp] theorem maxStack_within : (m.within w).config.maxStack = m.config.maxStack := rfl

@[simp] theorem addresses_within :
    (m.within w).config.addresses = w.settings.addresses m.config.addresses := rfl

end Machine

namespace Exec

variable {α β γ δ : Type}

/-- What a computation leaves, in other surroundings. -/
def resultWithin (w : Surroundings) (f : α → β) :
    EStateM.Result Fault Machine α → EStateM.Result Fault Machine β
  | .ok a m => .ok (f a) (m.within w)
  | .error e m => .error e (m.within w)

/-- A computation does in other surroundings what another does without them, and gives what is made
of the other's result. -/
def Carries (w : Surroundings) (f : α → β) (x : Exec α) (y : Exec β) : Prop :=
  ∀ m : Machine, y (m.within w) = resultWithin w f (x m)

theorem Carries.pure {f : α → β} (a : α) : Carries w f (Pure.pure a) (Pure.pure (f a)) :=
  fun _ => rfl

theorem Carries.throw {f : α → β} (e : Fault) : Carries w f (throw e) (throw e) :=
  fun _ => rfl

/-- **One computation after another.** -/
theorem Carries.bind {f : α → β} {g : γ → δ} {x : Exec α} {y : Exec β} {k : α → Exec γ}
    {l : β → Exec δ} (hx : Carries w f x y) (hk : ∀ a, Carries w g (k a) (l (f a))) :
    Carries w g (x >>= k) (y >>= l) := by
  intro m
  show EStateM.bind y l _ = resultWithin w g (EStateM.bind x k m)
  rw [EStateM.bind, EStateM.bind, hx]
  cases x m with
  | error e n => rfl
  | ok a n => exact hk a n

/-- The machine is read. -/
theorem Carries.get {g : γ → δ} {k : Machine → Exec γ} {l : Machine → Exec δ}
    (hk : ∀ m, Carries w g (k m) (l (m.within w))) : Carries w g (get >>= k) (get >>= l) :=
  fun m => hk m m

theorem Carries.modify {f g : Machine → Machine} (hf : ∀ m, g (m.within w) = (f m).within w) :
    Carries w id (modify f) (modify g) :=
  fun m => congrArg (EStateM.Result.ok ()) (hf m)

end Exec

namespace Machine

open Exec (Carries resultWithin)

/-! ## The operand stack and the heap -/

theorem carries_push (v : Value) : Carries w id (push v) (push (v.past w.older)) := by
  intro m
  simp only [push, within, under, past, Config.maxStack_under, Array.size_map]
  split
  · rfl
  · simp only [resultWithin, within, under, past, Array.map_push, id]

theorem carries_pop : Carries w (Value.past w.older) pop pop := by
  intro m
  simp only [pop, within, under, past, Array.size_map, Array.back?_map]
  cases m.stack.back? with
  | none => rfl
  | some v => simp [resultWithin, within, under, past]

theorem carries_take (n : Nat) : Carries w (Array.map (Value.past w.older)) (take n) (take n) := by
  intro m
  simp only [take, within, under, past, Array.size_map]
  split
  · rfl
  · simp [resultWithin, within, under, past, Array.shrink_eq_take]

theorem carries_top : Carries w (Value.past w.older) top top := by
  intro m
  simp only [top, within, under, past, Array.back?_map]
  cases m.stack.back? <;> rfl

theorem carries_make {f g : Heap → Value × Heap}
    (hf : ∀ h : Heap, g (h.past w.older) = Heap.madePast w.older (f h)) :
    Carries w (Value.past w.older) (make f) (make g) := by
  intro m
  simp only [make, within, under, past, hf]
  rfl

theorem carries_liftAccess (result : Except AccessError Value) :
    Carries w (Value.past w.older) (liftAccess result)
      (liftAccess (result.map (Value.past w.older))) := by
  intro m
  cases result <;> rfl

theorem carries_updateHeap {f g : Heap → Except AccessError Heap}
    (hf : ∀ h : Heap, g (h.past w.older) = (f h).map (Heap.past · w.older)) :
    Carries w id (updateHeap f) (updateHeap g) := by
  intro m
  simp only [updateHeap, within, under, past, hf]
  cases f m.heap <;> rfl

/-- A value that was made is pushed. -/
theorem carries_make_push {f g : Heap → Value × Heap}
    (hf : ∀ h : Heap, g (h.past w.older) = Heap.madePast w.older (f h)) :
    Carries w id (do push (← make f)) (do push (← make g)) :=
  Carries.bind (carries_make hf) carries_push

/-! ## Pushing -/

theorem carries_pushString (index : Nat) : Carries w id (pushString index) (pushString index) := by
  refine Carries.get fun m => ?_
  rw [program_within]
  cases m.program.strings[index]? with
  | none => exact Carries.throw _
  | some e => exact carries_make_push fun h => Heap.newHashedString_past h e.text e.hash

/-- A fault that shows a value. -/
private theorem carries_mismatch (op : Opcode) (v : Value) :
    Carries w id (do throw (.typeMismatch op ((← get).heap.render v)) : Exec Unit)
      (do throw (.typeMismatch op ((← get).heap.render (v.past w.older)))) := by
  refine Carries.get fun m => ?_
  have hrender : (m.within w).heap.render (v.past w.older) = m.heap.render v :=
    Heap.render_past m.heap v
  rw [hrender]
  exact Carries.throw _

theorem carries_pushFunction (address : Nat) :
    Carries w id (pushFunction address) (pushFunction address) := by
  refine Carries.bind carries_pop fun arity => ?_
  rw [Value.asNumber?_past]
  split
  · split
    · exact carries_push _
    · exact carries_mismatch _ arity
  · exact carries_mismatch _ arity

/-! ## Making tables -/

theorem flagsOf?_past (v : Value) : flagsOf? (v.past j) = flagsOf? v := by
  rw [flagsOf?, flagsOf?, Value.asNumber?_past]

theorem setPairs_past : ∀ (t : Table) (items : List Value),
    setPairs (t.past j) (items.map (Value.past j)) = (setPairs t items).map (Table.past j)
  | t, [] => rfl
  | t, [_] => rfl
  | t, key :: value :: rest => by
    rw [List.map_cons, List.map_cons, setPairs, setPairs, Value.toKey_past]
    cases key.toKey with
    | error e => rfl
    | ok k =>
      show setPairs ((t.past j).set (k.past j) (value.past j) .standard) _ = _
      rw [Table.set_past]
      exact setPairs_past (t.set k value .standard) rest

theorem setTriples_past (h : Heap) : ∀ (t : Table) (items : List Value),
    setTriples (h.past j) (t.past j) (items.map (Value.past j)) =
      (setTriples h t items).map (Table.past j)
  | t, [] => rfl
  | t, [_] => rfl
  | t, [_, _] => rfl
  | t, key :: flags :: value :: rest => by
    rw [List.map_cons, List.map_cons, List.map_cons, setTriples, setTriples, flagsOf?_past,
      Heap.render_past, Value.toKey_past]
    cases flagsOf? flags with
    | none => rfl
    | some f =>
      cases key.toKey with
      | error e => rfl
      | ok k =>
        show setTriples _ ((t.past j).set (k.past j) (value.past j) f) _ = _
        rw [Table.set_past]
        exact setTriples_past h (t.set k value f) rest

theorem tableOf_past (h : Heap) (derived flagged : Bool) (items : List Value) :
    tableOf (h.past j) derived flagged (items.map (Value.past j)) =
      (tableOf h derived flagged items).map (Table.past j) := by
  have hempty : ({} : Table) = Table.past j {} := rfl
  have hderived : ({ prototype := (items.map (Value.past j)).head? } : Table) =
      Table.past j { prototype := items.head? } := by
    rw [List.head?_map]
    rfl
  unfold tableOf
  rw [← List.map_drop]
  cases derived with
  | false =>
    cases flagged with
    | false => exact setPairs_past {} _
    | true => exact setTriples_past h {} _
  | true =>
    simp only [if_true, hderived]
    cases flagged with
    | false => exact setPairs_past _ _
    | true => exact setTriples_past h _ _

theorem carries_makeTable (n : Nat) (derived flagged : Bool) :
    Carries w id (makeTable n derived flagged) (makeTable n derived flagged) := by
  refine Carries.bind (carries_take _) fun items => Carries.get fun m => ?_
  rw [heap_within, Array.toList_map, tableOf_past]
  cases tableOf m.heap derived flagged items.toList with
  | ok t => exact carries_make_push fun h => Heap.newTable_past h t
  | error e => exact Carries.throw e

/-! ## Variables and scopes -/

theorem carries_define : Carries w id define define :=
  Carries.bind carries_pop fun v => Carries.modify fun m => by simp [within, under, past]

theorem carries_destructure (expected : Nat) :
    Carries w id (destructure expected) (destructure expected) := by
  refine Carries.bind carries_pop fun v => ?_
  rcases v with s | id | id
  · show Carries w _ (throw _) (throw (.typeMismatch .destructure (s.past w.older).tag.name))
    rw [Scalar.tag_past]
    exact Carries.throw _
  · refine Carries.get fun m => ?_
    have hitems : (m.within w).heap.items (w.older.arrays.size + id) =
        (m.heap.items id).map (Value.past w.older) := Heap.items_past m.heap id
    dsimp only
    rw [hitems, Array.size_map]
    split
    · exact Carries.modify fun m => by simp [within, under, past]
    · exact Carries.throw _
  · exact Carries.throw _

theorem carries_loadVariable (index : Nat) :
    Carries w id (loadVariable index) (loadVariable index) := by
  refine Carries.get fun m => ?_
  simp only [within, under, past, Array.getElem?_map, Array.size_map]
  cases m.slots[index]? with
  | none => exact Carries.throw _
  | some v => exact carries_push v

theorem carries_storeVariable (index : Nat) :
    Carries w id (storeVariable index) (storeVariable index) := by
  refine Carries.bind carries_pop fun v => Carries.get fun m => ?_
  simp only [within, under, past, Array.size_map]
  split
  · exact Carries.modify fun m => by simp [within, under, past]
  · exact Carries.throw _

theorem carries_enterScope : Carries w id enterScope enterScope :=
  Carries.modify fun m => by simp [within, under, past]

theorem carries_leaveScope : Carries w id leaveScope leaveScope := by
  intro m
  simp only [leaveScope, within, under, past]
  split
  · rfl
  · simp [resultWithin, within, under, past, Array.shrink_eq_take]

/-! ## Control -/

theorem carries_checkTarget (target : Nat) :
    Carries w id (checkTarget target) (checkTarget target) := by
  intro m
  unfold checkTarget
  rw [program_within]
  split <;> rfl

theorem carries_jump (target : Nat) : Carries w id (jump target) (jump target) :=
  Carries.bind (carries_checkTarget target) fun _ => Carries.pure _

theorem carries_jumpWhen (truth : Bool) (target : Nat) :
    Carries w id (jumpWhen truth target) (jumpWhen truth target) := by
  refine Carries.bind (carries_checkTarget target) fun _ =>
    Carries.bind carries_pop fun v => Carries.get fun m => ?_
  have htruth : (m.within w).heap.truthy (v.past w.older) = m.heap.truthy v :=
    Heap.truthy_past m.heap v
  rw [htruth]
  exact Carries.pure _

theorem carries_call (count back : Nat) : Carries w id (call count back) (call count back) := by
  intro m
  unfold call
  simp only [stack_within, Array.size_map, maxStack_within, frames_within, program_within]
  by_cases hfew : m.stack.size < count + 1
  · rw [if_pos hfew, if_pos hfew]
    rfl
  · rw [if_neg hfew, if_neg hfew]
    have hcallee (slot : Nat) : (m.stack.map (Value.past w.older)).getD slot .nil =
        (m.stack.getD slot .nil).past w.older := by
      rw [Array.getD_eq_getD_getElem?, Array.getD_eq_getD_getElem?, Array.getElem?_map]
      cases m.stack[slot]? <;> rfl
    rw [hcallee]
    rcases m.stack.getD (m.stack.size - count - 1) .nil with (_ | _ | _ | _ | f) | r
    case scalar.function =>
      dsimp only [Value.past, Scalar.past]
      split
      · rfl
      · split
        · rfl
        · split
          · rfl
          · simp only [resultWithin, within, under, past, id, map_eraseIdxIfInBounds]
    case ref =>
      show EStateM.Result.error (Fault.typeMismatch .call (r.past w.older).tag.name) _ = _
      rw [Ref.tag_past]
      rfl
    all_goals rfl

theorem carries_ret : Carries w id ret ret := by
  intro m
  simp only [ret, within, under, past]
  split <;> rfl

/-! ## Operators and access -/

theorem carries_negate : Carries w id negate negate := by
  refine Carries.bind carries_pop fun v => ?_
  rcases v with (_ | _ | x | _ | _) | r
  case scalar.number => exact carries_push _
  case ref =>
    show Carries w _ (throw _) (throw (.typeMismatch .neg (r.past w.older).tag.name))
    rw [Ref.tag_past]
    exact Carries.throw _
  all_goals exact Carries.throw _

/-- What an operator makes of two numbers is the same past any heap. -/
theorem past_of_onNumbers? {op : Opcode} {x y : Number} {s : Scalar}
    (h : onNumbers? op x y = some s) : s.past j = s := by
  unfold onNumbers? at h
  split at h <;> first | contradiction | (obtain rfl := Option.some.inj h; rfl)

theorem carries_binary (op : Opcode) (a b : Value) :
    Carries w (Value.past w.older) (binary op a b)
      (binary op (a.past w.older) (b.past w.older)) := by
  refine Carries.get fun m => ?_
  have hequals : (m.within w).heap.equals (a.past w.older) (b.past w.older) = m.heap.equals a b :=
    Heap.equals_past m.heap a b
  dsimp only
  rw [Value.tag_past, Value.tag_past]
  split
  · rw [hequals]
    exact Carries.pure _
  · rw [hequals]
    exact Carries.pure _
  · next x y heq hne =>
    simp only [Value.past, Scalar.past]
    split
    · next s hs =>
      have hresult : Value.past w.older (.scalar s) = .scalar s :=
        congrArg Value.scalar (past_of_onNumbers? hs)
      have hpure : Carries w (Value.past w.older) (pure (Value.scalar s))
          (pure (Value.past w.older (.scalar s))) := Carries.pure _
      rwa [hresult] at hpure
    · exact Carries.throw _
  · next s t => exact carries_make fun h => Heap.newString_past h _
  · next s t heq hne hadd =>
    simp only [Value.past, Scalar.past, SharedString.text_past]
    split
    · exact Carries.pure _
    · exact Carries.throw _
  -- Two values of which an operator makes nothing are no better past the heap.
  · next heq hne hnumbers htexts hadd =>
    have hnumbers' (x y : Number) (ha : a.past w.older = .number x)
        (hb : b.past w.older = .number y) : False :=
      hnumbers x y (Value.eq_number_of_past ha) (Value.eq_number_of_past hb)
    have htexts' (s t : SharedString) (ha : a.past w.older = .string s)
        (hb : b.past w.older = .string t) : False := by
      obtain ⟨s', hs⟩ := Value.exists_string_of_past ha
      obtain ⟨t', ht⟩ := Value.exists_string_of_past hb
      exact htexts s' t' hs ht
    clear hequals
    generalize a.past w.older = a', b.past w.older = b' at hnumbers' htexts' ⊢
    split
    · exact (heq rfl).elim
    · exact (hne rfl).elim
    · exact (hnumbers' _ _ rfl rfl).elim
    · exact (htexts' _ _ rfl rfl).elim
    · exact (htexts' _ _ rfl rfl).elim
    · exact Carries.throw _

theorem carries_operator (op : Opcode) : Carries w id (operator op) (operator op) :=
  Carries.bind carries_pop fun b => Carries.bind carries_pop fun a =>
    Carries.bind (carries_binary op a b) carries_push

/-- A value is replaced by one that does not depend on what is around the machine. -/
theorem carries_replace {f : Machine → Value → Value}
    (hf : ∀ (m : Machine) v, f (m.within w) (v.past w.older) = (f m v).past w.older) :
    Carries w id (replace f) (replace f) := by
  refine Carries.bind carries_pop fun v => Carries.get fun m => ?_
  rw [hf]
  exact carries_push _

theorem carries_getIndexed : Carries w id getIndexed getIndexed := by
  refine Carries.bind carries_pop fun key => Carries.bind carries_pop fun container =>
    Carries.get fun m => ?_
  have hget : (m.within w).heap.get (container.past w.older) (key.past w.older) =
      (m.heap.get container key).map (Value.past w.older) := Heap.get_past m.heap container key
  rw [hget]
  exact Carries.bind (carries_liftAccess _) carries_push

theorem carries_setIndexed : Carries w id setIndexed setIndexed :=
  Carries.bind carries_pop fun value => Carries.bind carries_pop fun key =>
    Carries.bind carries_pop fun container =>
      carries_updateHeap fun h => Heap.set_past h container key value

theorem carries_deleteIndexed : Carries w id deleteIndexed deleteIndexed := by
  refine Carries.bind carries_pop fun key => Carries.bind carries_pop fun container =>
    carries_updateHeap fun h => ?_
  rw [Heap.delete_past]
  cases h.delete container key <;> rfl

theorem carries_inspect : Carries w id inspect inspect := by
  refine Carries.bind carries_pop fun v => Carries.get fun m => ?_
  have hrender : (m.within w).heap.render (v.past w.older) = m.heap.render v :=
    Heap.render_past m.heap v
  dsimp only
  rw [hrender]
  exact carries_make_push fun h => Heap.newString_past h _

/-! ## Instructions -/

theorem carries_operate {op : Opcode} (hop : op ≠ .identity) (a : Argument) :
    Carries w id (operate op a) (operate op a) := by
  cases op with
  | pushNil | pushTrue | pushFalse => exact carries_push _
  | pushInt => exact carries_push (.number _)
  | pushNumber => exact carries_push (.number _)
  | pushString => exact carries_pushString _
  | makeArray =>
    exact Carries.bind (carries_take _) fun items =>
      carries_make_push fun h => Heap.newArray_past h items
  | makeTable | makeFlaggedTable | makeDerivedTable | makeDerivedFlaggedTable =>
    exact carries_makeTable _ _ _
  | pushFunction => exact carries_pushFunction _
  | pop => exact Carries.bind carries_pop fun _ => Carries.pure _
  | dup => exact Carries.bind carries_top carries_push
  | define => exact carries_define
  | destructure => exact carries_destructure _
  | load => exact carries_loadVariable _
  | store => exact carries_storeVariable _
  | enterScope => exact carries_enterScope
  | leaveScope => exact carries_leaveScope
  | neg => exact carries_negate
  | not =>
    refine carries_replace (f := fun m v => .bool !(m.heap.truthy v)) fun m v => ?_
    rw [heap_within, Heap.truthy_past]
    rfl
  | isNil =>
    refine carries_replace (f := fun _ v => .bool v.isNil) fun m v => ?_
    rw [Value.isNil_past]
    rfl
  | identity => contradiction
  | add | sub | mul | div | mod | eq | ne | lt | le | gt | ge => exact carries_operator _
  | get => exact carries_getIndexed
  | set => exact carries_setIndexed
  | delete => exact carries_deleteIndexed
  | inspect => exact carries_inspect
  | jump | jumpIf | jumpUnless | call | ret => exact Carries.pure _

/-- What is shown of an identity has none. -/
theorem shown_past (a : Addresses) (v : Value) : (a.shown v).past j = a.shown v := by
  unfold Addresses.shown
  cases v.payload? <;> rfl

/-- An identity is shown alike where that of the top value is. -/
theorem operate_identity_within {m : Machine} {a : Argument}
    (hshows : ∀ v, m.stack.back? = some v →
      (w.settings.addresses m.config.addresses).shown (v.past w.older) =
        m.config.addresses.shown v) :
    operate .identity a (m.within w) = resultWithin w id (operate .identity a m) := by
  have hcarried := carries_pop (w := w) m
  cases htop : m.stack.back? with
  | none =>
    have hpop : pop m = .error .stackUnderflow m := by rw [pop, htop]
    have hrun : operate .identity a m = .error .stackUnderflow m := bind_of_error hpop
    rw [hpop] at hcarried
    rw [hrun]
    exact bind_of_error hcarried
  | some v =>
    obtain ⟨n, hpop, hconfig⟩ : ∃ n, pop m = .ok v n ∧ n.config = m.config := by
      refine ⟨_, by rw [pop, htop], ?_⟩
      rfl
    have hrun : operate .identity a m = push (n.config.addresses.shown v) n := bind_of_ok hpop
    rw [hpop] at hcarried
    have hrun' : operate .identity a (m.within w) =
        push ((n.within w).config.addresses.shown (v.past w.older)) (n.within w) :=
      bind_of_ok hcarried
    have hshown : (n.within w).config.addresses.shown (v.past w.older) =
        (n.config.addresses.shown v).past w.older := by
      rw [shown_past, addresses_within, hconfig, hshows v htop]
    rw [hrun, hrun', hshown]
    exact carries_push _ n

theorem carries_execute {i : Instruction} (hop : i.opcode ≠ .identity) :
    Carries w id (execute i) (execute i) := by
  unfold execute
  split
  · exact carries_jump _
  · exact carries_jumpWhen _ _
  · exact carries_jumpWhen _ _
  · exact carries_call _ _
  · exact carries_ret
  · exact Carries.bind (carries_operate hop _) fun _ => Carries.pure _

end Machine

/-- An instruction shows the same in such surroundings, if it shows an identity. -/
def Instruction.ShowsAlikeWithin (i : Instruction) (w : Surroundings) (m : Machine) : Prop :=
  i.opcode = .identity → ∀ v, m.stack.back? = some v →
    (w.settings.addresses m.config.addresses).shown (v.past w.older) = m.config.addresses.shown v

namespace Machine

variable {m : Machine} {i : Instruction}

/-- **An instruction does the same in all surroundings**, where the identity that it may show is
shown alike. -/
theorem execute_within (hshows : i.ShowsAlikeWithin w m) :
    execute i (m.within w) = Exec.resultWithin w id (execute i m) := by
  by_cases hop : i.opcode = .identity
  · have hexecute : execute i = (do operate .identity i.argument; pure .next) := by
      rw [execute, hop]
    rw [hexecute]
    show EStateM.bind _ _ _ = Exec.resultWithin w id (EStateM.bind _ _ m)
    rw [EStateM.bind, EStateM.bind, operate_identity_within (hshows hop)]
    cases operate .identity i.argument m <;> rfl
  · exact carries_execute hop m

theorem stackLine_within : (m.within w).stackLine = m.stackLine := by
  have hopened : [Ref.array (m.within w).heap.arrays.size] =
      [Ref.array m.heap.arrays.size].map (Ref.past w.older) := by
    simp [Heap.past, Ref.past]
  have htexts : (m.within w).stack.toList.map ((m.within w).heap.renderIn
      [.array (m.within w).heap.arrays.size]) =
      m.stack.toList.map (m.heap.renderIn [.array m.heap.arrays.size]) := by
    rw [hopened, stack_within, Array.toList_map, List.map_map]
    exact List.map_congr_left fun v _ => Heap.renderIn_past m.heap _ v
  rw [stackLine, stackLine, htexts]

theorem results_within : (m.within w).results = m.results.map (Value.past w.older) := by
  unfold results
  rw [stack_within, Array.size_map]
  show (if m.pristine && 1 < m.stack.size then _ else _) = _
  split
  · exact (Array.map_extract ..).symm
  · rfl

end Machine

/-! ## Other settings -/

/-- Under other settings alone, the heap and the values are as they are. -/
theorem Machine.within_settings (m : Machine) (c : Resetting) :
    m.within { settings := c } = m.under c := by
  simp [within, under, past, Value.past_empty, Heap.past_empty]

/-- What an instruction leaves, under other settings. -/
def Machine.resultUnder {α : Type} (c : Resetting) :
    EStateM.Result Fault Machine α → EStateM.Result Fault Machine α
  | .ok a m => .ok a (m.under c)
  | .error e m => .error e (m.under c)

/-- An instruction shows the same with other addresses, if it shows an identity. -/
def Instruction.ShowsAlike (i : Instruction) (m : Machine) (a : Addresses) : Prop :=
  i.opcode = .identity →
    ∀ v, m.stack.back? = some v → a.shown v = m.config.addresses.shown v

/-- Other addresses are all that an instruction can see of other settings. -/
theorem Instruction.ShowsAlike.within {i : Instruction} {m : Machine} {c : Resetting}
    (h : i.ShowsAlike m (c.addresses m.config.addresses)) :
    i.ShowsAlikeWithin { settings := c } m := by
  intro hop v hv
  rw [Value.past_empty]
  exact h hop v hv

/-- **No instruction sees the settings**, but for the addresses that it shows. -/
theorem Machine.execute_under {i : Instruction} {m : Machine} {c : Resetting}
    (hshows : i.ShowsAlike m (c.addresses m.config.addresses)) :
    execute i (m.under c) = resultUnder c (execute i m) := by
  rw [← within_settings, execute_within hshows.within]
  cases execute i m with
  | ok flow n => exact congrArg (EStateM.Result.ok flow) (n.within_settings c)
  | error why n => exact congrArg (EStateM.Result.error why) (n.within_settings c)

/-! ## Instructions that show no address -/

/-- An instruction shows the address of a payload: it is applied to a string or a container. -/
def Instruction.ShowsIdentity (i : Instruction) (m : Machine) : Prop :=
  i.opcode = .identity ∧ ∃ v, m.stack.back? = some v ∧ v.payload? ≠ none

/-- What has no payload is shown as nil. -/
theorem Addresses.shown_past_of_none {a : Addresses} {v : Value} (hv : v.payload? = none) :
    a.shown (v.past j) = .nil := by
  rcases v with (_ | _ | _ | s | _) | r
  case scalar.string | ref => cases hv
  all_goals rfl

/-- **An instruction that shows no address** shows the same in all surroundings. -/
theorem Instruction.showsAlikeWithin_of_not {i : Instruction} {m : Machine}
    (h : ¬i.ShowsIdentity m) (w : Surroundings) : i.ShowsAlikeWithin w m := by
  intro hop v hv
  have hnone : v.payload? = none := by
    by_contra hsome
    exact h ⟨hop, v, hv, hsome⟩
  rw [Addresses.shown_past_of_none hnone, Addresses.shown, hnone]

end StackMachine
