import StackMachine.Proofs.Machine.Keeps
import StackMachine.Proofs.Value.Held

/-!
# Disciplines

A discipline asks something of every scalar that a machine holds, of every address where control
stands or may go back to, and of every fault. A lawful discipline allows what instructions compute,
and asks of an instruction only what its operand brings in (`Discipline.Admits`): its target, its
function and its string. Executing an instruction that is admitted keeps the discipline, whether it
succeeds or fails (`keeps_execute`).
-/

namespace StackMachine

/-! ## What is asked -/

/-- What is asked of a machine. -/
structure Discipline where
  /-- Of every scalar on the stack, in a variable or in a container. -/
  scalar : Scalar → Prop
  /-- Of the address where control stands, and of every return address. -/
  address : Nat → Prop
  /-- Of every fault. -/
  fault : Fault → Prop

/-- A machine that runs a program and does what a discipline asks. -/
structure Machine.Obeys (D : Discipline) (p : Program) (m : Machine) : Prop where
  program : m.program = p
  ip : D.address m.ip
  stack : ∀ v ∈ m.stack, v.Meets D.scalar
  slots : ∀ v ∈ m.slots, v.Meets D.scalar
  frames : ∀ x ∈ m.frames, D.address x
  heap : m.heap.Meets D.scalar

/-- What instructions compute is allowed, a function names an address that is allowed, and so are
all faults but those of jumps and of strings that are not in the pool; a jump may fail only as it is
asked of its target. -/
structure Discipline.Lawful (D : Discipline) (p : Program) : Prop where
  nil : D.scalar .nil
  bool : ∀ b, D.scalar (.bool b)
  number : ∀ x, D.scalar (.number x)
  string : ∀ text id, D.scalar (.string { text, id })
  function : ∀ f, D.scalar (.function f) → D.address f.address.toNat
  jump : ∀ x, D.address x → p.code.size < x → D.fault (.invalidJump x)
  fault : ∀ {why}, (∀ x, why ≠ .invalidJump x) → (∀ n, why ≠ .missingString n) → D.fault why

/-- What an instruction brings in from the code is allowed. -/
structure Discipline.Admits (D : Discipline) (p : Program) (i : Instruction) : Prop where
  next : D.address i.next
  target : i.opcode = .jump ∨ i.opcode = .jumpIf ∨ i.opcode = .jumpUnless →
    D.address i.argument.toNat
  function : i.opcode = .pushFunction →
    ∀ arity, D.scalar (.function ⟨UInt64.ofNat i.argument.toNat, arity⟩)
  missing : i.opcode = .pushString → p.strings[i.argument.toNat]? = none →
    D.fault (.missingString i.argument.toNat)
  string : i.opcode = .pushString → ∀ e, p.strings[i.argument.toNat]? = some e →
    ∀ id, D.scalar (.string { text := e.text, presetHash := some e.hash, id })

/-- What is asked of where the machine goes. -/
def Flow.Allowed (D : Discipline) : Flow → Prop
  | .jump target => D.address target
  | .next | .halt => True

namespace Machine

open Exec (Keeps)

variable {D : Discipline} {p : Program} (hD : D.Lawful p)

theorem obeys_start (hD : D.Lawful p) (hstart : D.address 0) (config : Config) :
    Obeys D p (start config p) where
  program := rfl
  ip := hstart
  stack := by
    intro v hv
    obtain rfl : v = .nil := by simpa [start] using hv
    exact hD.nil
  slots := by simp [start]
  frames := by simp [start]
  heap := Heap.Meets.empty

include hD

/-! ## The operand stack -/

theorem keeps_push {v : Value} (hv : v.Meets D.scalar) :
    Keeps (Obeys D p) D.fault (push v) fun _ => True := by
  intro m hm
  by_cases hfull : m.config.maxStack ≤ m.stack.size
  · simp only [push, if_pos hfull]
    exact ⟨hm, hD.fault nofun nofun⟩
  · simp only [push, if_neg hfull]
    refine ⟨{ hm with stack := ?_ }, trivial⟩
    intro w hw
    rcases Array.mem_push.1 hw with hw | rfl
    · exact hm.stack w hw
    · exact hv

theorem keeps_pop : Keeps (Obeys D p) D.fault pop (Value.Meets D.scalar) := by
  intro m hm
  cases htop : m.stack.back? with
  | none =>
    simp only [pop, htop]
    exact ⟨hm, hD.fault nofun nofun⟩
  | some v =>
    simp only [pop, htop]
    refine ⟨{ hm with stack := ?_ }, hm.stack v (Array.mem_of_back? htop)⟩
    intro w hw
    exact hm.stack w (mem_of_mem_pop hw)

theorem keeps_take (n : Nat) :
    Keeps (Obeys D p) D.fault (take n) fun items => ∀ v ∈ items, v.Meets D.scalar := by
  intro m hm
  by_cases hshort : m.stack.size < n
  · simp only [take, if_pos hshort]
    exact ⟨hm, hD.fault nofun nofun⟩
  · simp only [take, if_neg hshort]
    refine ⟨{ hm with stack := ?_ }, ?_⟩
    · intro w hw
      exact hm.stack w (mem_of_mem_shrink hw)
    · intro w hw
      exact hm.stack w (mem_of_mem_extract hw)

theorem keeps_top : Keeps (Obeys D p) D.fault top (Value.Meets D.scalar) := by
  intro m hm
  cases htop : m.stack.back? with
  | none =>
    simp only [top, htop]
    exact ⟨hm, hD.fault nofun nofun⟩
  | some v =>
    simp only [top, htop]
    exact ⟨hm, hm.stack v (Array.mem_of_back? htop)⟩

omit hD in
theorem keeps_make {f : Heap → Value × Heap}
    (hf : ∀ h : Heap, h.Meets D.scalar → (f h).1.Meets D.scalar ∧ (f h).2.Meets D.scalar) :
    Keeps (Obeys D p) D.fault (make f) (Value.Meets D.scalar) := by
  intro m hm
  obtain ⟨hvalue, hheap⟩ := hf m.heap hm.heap
  exact ⟨{ hm with heap := hheap }, hvalue⟩

theorem keeps_liftAccess {α : Type} {result : Except AccessError α} {Q : α → Prop}
    (h : ∀ a, result = .ok a → Q a) : Keeps (Obeys D p) D.fault (liftAccess result) Q := by
  intro m hm
  cases result with
  | error e => exact ⟨hm, hD.fault nofun nofun⟩
  | ok a => exact ⟨hm, h a rfl⟩

/-- A text that was computed is pushed as a new string. -/
theorem keeps_newString (text : String) :
    Keeps (Obeys D p) D.fault (make (·.newString text)) (Value.Meets D.scalar) :=
  keeps_make fun h hh => ⟨hD.string text h.stringCount, hh.arrays, hh.tables⟩

/-! ## Pushing -/

theorem keeps_pushString {index : Nat}
    (hmissing : p.strings[index]? = none → D.fault (.missingString index))
    (hstring : ∀ e, p.strings[index]? = some e →
      ∀ id, D.scalar (.string { text := e.text, presetHash := some e.hash, id })) :
    Keeps (Obeys D p) D.fault (pushString index) fun _ => True := by
  unfold pushString
  refine Keeps.bind Keeps.get fun m hm => ?_
  rw [hm.program]
  split
  · next hnone => exact Keeps.throw (hmissing hnone)
  · next e he =>
    refine Keeps.bind (keeps_make fun h hh => ?_) fun v hv => keeps_push hD hv
    exact ⟨hstring e he h.stringCount, hh.arrays, hh.tables⟩

theorem keeps_pushFunction {address : Nat}
    (hfunction : ∀ arity, D.scalar (.function ⟨UInt64.ofNat address, arity⟩)) :
    Keeps (Obeys D p) D.fault (pushFunction address) fun _ => True := by
  have hmismatch (v : Value) : Keeps (Obeys D p) D.fault
      (do throw (.typeMismatch .pushFunction ((← get).heap.render v)) : Exec Unit)
      fun _ => True :=
    Keeps.bind Keeps.get fun m hm => Keeps.throw (hD.fault nofun nofun)
  unfold pushFunction
  refine Keeps.bind (keeps_pop hD) fun v hv => ?_
  split
  · split
    · exact keeps_push hD (hfunction _)
    · exact hmismatch v
  · exact hmismatch v

/-! ## Making tables -/

/-- What is asked of the outcome of filling a table. -/
private theorem meets_setPairs {t : Table} {items : List Value}
    (ht : t.Meets D.scalar) (hitems : ∀ v ∈ items, v.Meets D.scalar) :
    (∀ u, setPairs t items = .ok u → u.Meets D.scalar) ∧
      ∀ e, setPairs t items = .error e → D.fault e := by
  fun_induction setPairs t items with
  | case1 t key value rest k hk ih =>
    refine ih (ht.set ((hitems key (by simp)).toKey hk) (hitems value (by simp)) _) ?_
    exact fun v hv => hitems v (by simp [hv])
  | case2 t key value rest e he =>
    refine ⟨nofun, fun e' he' => ?_⟩
    obtain rfl := Except.error.inj he'
    exact hD.fault nofun nofun
  | case3 t items hitems' =>
    refine ⟨fun u hu => ?_, nofun⟩
    obtain rfl := Except.ok.inj hu
    exact ht

private theorem meets_setTriples {h : Heap} {t : Table} {items : List Value}
    (ht : t.Meets D.scalar) (hitems : ∀ v ∈ items, v.Meets D.scalar) :
    (∀ u, setTriples h t items = .ok u → u.Meets D.scalar) ∧
      ∀ e, setTriples h t items = .error e → D.fault e := by
  fun_induction setTriples h t items with
  | case1 t key flags value rest hflags =>
    refine ⟨nofun, fun e' he' => ?_⟩
    obtain rfl := Except.error.inj he'
    exact hD.fault nofun nofun
  | case2 t key flags value rest f hflags k hk ih =>
    refine ih (ht.set ((hitems key (by simp)).toKey hk) (hitems value (by simp)) _) ?_
    exact fun v hv => hitems v (by simp [hv])
  | case3 t key flags value rest f hflags e he =>
    refine ⟨nofun, fun e' he' => ?_⟩
    obtain rfl := Except.error.inj he'
    exact hD.fault nofun nofun
  | case4 t items hitems' =>
    refine ⟨fun u hu => ?_, nofun⟩
    obtain rfl := Except.ok.inj hu
    exact ht

theorem keeps_makeTable (n : Nat) (derived flagged : Bool) :
    Keeps (Obeys D p) D.fault (makeTable n derived flagged) fun _ => True := by
  unfold makeTable
  refine Keeps.bind (keeps_take hD _) fun items hitems => ?_
  refine Keeps.bind Keeps.get fun m hm => ?_
  have hlist : ∀ v ∈ items.toList, v.Meets D.scalar :=
    fun v hv => hitems v (Array.mem_toList_iff.1 hv)
  have hgroups : ∀ v ∈ items.toList.drop derived.toNat, v.Meets D.scalar :=
    fun v hv => hlist v (List.mem_of_mem_drop hv)
  -- The prototype is the lowest of the operands, the groups that fill the table are above it.
  have hbegin : Table.Meets D.scalar
      (if derived then { prototype := items.toList.head? } else {}) := by
    split
    · exact Table.Meets.derived fun v hv => hlist v (List.mem_of_head? hv)
    · exact Table.Meets.empty
  have htable : (∀ u, tableOf m.heap derived flagged items.toList = .ok u → u.Meets D.scalar) ∧
      ∀ e, tableOf m.heap derived flagged items.toList = .error e → D.fault e := by
    unfold tableOf
    cases flagged with
    | true => exact meets_setTriples hD hbegin hgroups
    | false => exact meets_setPairs hD hbegin hgroups
  split
  · next t ht =>
    exact Keeps.bind (keeps_make fun h hh => ⟨trivial, hh.newTable (htable.1 t ht)⟩)
      fun v hv => keeps_push hD hv
  · next e he => exact Keeps.throw (htable.2 e he)

/-! ## Variables and scopes -/

theorem keeps_define : Keeps (Obeys D p) D.fault define fun _ => True := by
  refine Keeps.bind (keeps_pop hD) fun v hv => Keeps.modify fun m hm => { hm with slots := ?_ }
  intro w hw
  rcases Array.mem_push.1 hw with hw | rfl
  · exact hm.slots w hw
  · exact hv

theorem keeps_destructure (expected : Nat) :
    Keeps (Obeys D p) D.fault (destructure expected) fun _ => True := by
  unfold destructure
  refine Keeps.bind (keeps_pop hD) fun v hv => ?_
  split
  · next id =>
    refine Keeps.bind Keeps.get fun m hm => ?_
    dsimp only
    split
    -- The items come from the heap of the machine that was read, not of the one that is modified.
    · refine Keeps.modify fun n hn => { hn with slots := ?_ }
      intro w hw
      rcases Array.mem_append.1 hw with hw | hw
      · exact hn.slots w hw
      · exact hm.heap.items id w hw
    · exact Keeps.throw (hD.fault nofun nofun)
  · exact Keeps.throw (hD.fault nofun nofun)

theorem keeps_loadVariable (index : Nat) :
    Keeps (Obeys D p) D.fault (loadVariable index) fun _ => True := by
  unfold loadVariable
  refine Keeps.bind Keeps.get fun m hm => ?_
  split
  · next v hv => exact keeps_push hD (hm.slots v (Array.mem_of_getElem? hv))
  · exact Keeps.throw (hD.fault nofun nofun)

theorem keeps_storeVariable (index : Nat) :
    Keeps (Obeys D p) D.fault (storeVariable index) fun _ => True := by
  unfold storeVariable
  refine Keeps.bind (keeps_pop hD) fun v hv => Keeps.bind Keeps.get fun m hm => ?_
  dsimp only
  split
  · refine Keeps.modify fun n hn => { hn with slots := ?_ }
    intro w hw
    rcases mem_of_mem_setIfInBounds hw with hw | rfl
    · exact hn.slots w hw
    · exact hv
  · exact Keeps.throw (hD.fault nofun nofun)

omit hD in
theorem keeps_enterScope : Keeps (Obeys D p) D.fault enterScope fun _ => True :=
  Keeps.modify fun _ hm => { hm with }

theorem keeps_leaveScope : Keeps (Obeys D p) D.fault leaveScope fun _ => True := by
  intro m hm
  unfold leaveScope
  cases m.marks with
  | nil => exact ⟨hm, hD.fault nofun nofun⟩
  | cons mark marks =>
    refine ⟨{ hm with slots := ?_ }, trivial⟩
    intro w hw
    exact hm.slots w (mem_of_mem_shrink hw)

/-! ## Control -/

theorem keeps_checkTarget {target : Nat} (htarget : D.address target) :
    Keeps (Obeys D p) D.fault (checkTarget target) fun _ => True := by
  intro m hm
  by_cases hinside : target ≤ m.program.code.size
  · simp only [checkTarget, if_pos hinside]
    exact ⟨hm, trivial⟩
  · simp only [checkTarget, if_neg hinside]
    rw [hm.program, Nat.not_le] at hinside
    exact ⟨hm, hD.jump target htarget hinside⟩

theorem keeps_jump {target : Nat} (htarget : D.address target) :
    Keeps (Obeys D p) D.fault (jump target) (Flow.Allowed D) :=
  Keeps.bind (keeps_checkTarget hD htarget) fun _ _ => Keeps.pure htarget

theorem keeps_jumpWhen (truth : Bool) {target : Nat} (htarget : D.address target) :
    Keeps (Obeys D p) D.fault (jumpWhen truth target) (Flow.Allowed D) := by
  refine Keeps.bind (keeps_checkTarget hD htarget) fun _ _ => ?_
  refine Keeps.bind (keeps_pop hD) fun v hv => Keeps.bind Keeps.get fun m hm => Keeps.pure ?_
  split
  · exact htarget
  · trivial

/-- A call goes where the function on the stack says, and keeps the way back. -/
theorem keeps_call (count : Nat) {back : Nat} (hback : D.address back) :
    Keeps (Obeys D p) D.fault (call count back) (Flow.Allowed D) := by
  intro m hm
  unfold call
  by_cases hshort : m.stack.size < count + 1
  · rw [if_pos hshort]
    exact ⟨hm, hD.fault nofun nofun⟩
  · rw [if_neg hshort]
    -- What is called lies below its arguments.
    have hcallee : (m.stack.getD (m.stack.size - count - 1) .nil).Meets D.scalar := by
      unfold Array.getD
      split
      · exact hm.stack _ (Array.getElem_mem _)
      · exact hD.nil
    dsimp only
    generalize m.stack.getD (m.stack.size - count - 1) .nil = callee at hcallee ⊢
    rcases callee with (_ | _ | _ | _ | f) | _
    case scalar.function =>
      have haddress : D.address f.address.toNat := hD.function f hcallee
      by_cases harity : f.arity.toNat ≠ count
      · simp only [if_pos harity]
        exact ⟨hm, hD.fault nofun nofun⟩
      · by_cases hdeep : m.config.maxStack ≤ m.frames.size
        · simp only [if_neg harity, if_pos hdeep]
          exact ⟨hm, hD.fault nofun nofun⟩
        · by_cases houtside : m.program.code.size < f.address.toNat
          · simp only [if_neg harity, if_neg hdeep, if_pos houtside]
            rw [hm.program] at houtside
            exact ⟨hm, hD.jump _ haddress houtside⟩
          · simp only [if_neg harity, if_neg hdeep, if_neg houtside]
            refine ⟨{ hm with stack := ?_, frames := ?_ }, haddress⟩
            · intro w hw
              exact hm.stack w (mem_of_mem_eraseIdxIfInBounds hw)
            · intro x hx
              rcases Array.mem_push.1 hx with hx | rfl
              · exact hm.frames x hx
              · exact hback
    -- Nothing else can be called.
    all_goals exact ⟨hm, hD.fault nofun nofun⟩

omit hD in
/-- Returning goes where a call left the way back. -/
theorem keeps_ret : Keeps (Obeys D p) D.fault ret (Flow.Allowed D) := by
  intro m hm
  unfold ret
  cases hback : m.frames.back? with
  | none => exact ⟨hm, trivial⟩
  | some address =>
    refine ⟨{ hm with frames := ?_ }, hm.frames address (Array.mem_of_back? hback)⟩
    intro x hx
    exact hm.frames x (mem_of_mem_pop hx)

/-! ## Operators -/

theorem keeps_negate : Keeps (Obeys D p) D.fault negate fun _ => True := by
  unfold negate
  refine Keeps.bind (keeps_pop hD) fun v hv => ?_
  split
  · exact keeps_push hD (hD.number _)
  · exact Keeps.throw (hD.fault nofun nofun)

private theorem scalar_of_onNumbers? {op : Opcode} {x y : Number} {s : Scalar}
    (h : onNumbers? op x y = some s) : D.scalar s := by
  unfold onNumbers? at h
  split at h
  all_goals first | contradiction | obtain rfl := Option.some.inj h
  all_goals first | exact hD.number _ | exact hD.bool _

/-- What an operator gives is a number, a truth value or a new string. -/
theorem keeps_binary (op : Opcode) (a b : Value) :
    Keeps (Obeys D p) D.fault (binary op a b) (Value.Meets D.scalar) := by
  unfold binary
  refine Keeps.bind Keeps.get fun m hm => ?_
  dsimp only
  split
  · exact Keeps.pure (hD.bool _)
  · exact Keeps.pure (hD.bool _)
  · split
    · next s hs => exact Keeps.pure (scalar_of_onNumbers? hD hs)
    · exact Keeps.throw (hD.fault nofun nofun)
  · exact keeps_newString hD _
  · split
    · exact Keeps.pure (hD.bool _)
    · exact Keeps.throw (hD.fault nofun nofun)
  · exact Keeps.throw (hD.fault nofun nofun)

theorem keeps_operator (op : Opcode) :
    Keeps (Obeys D p) D.fault (operator op) fun _ => True := by
  refine Keeps.bind (keeps_pop hD) fun b hb => Keeps.bind (keeps_pop hD) fun a ha => ?_
  exact Keeps.bind (keeps_binary hD op a b) fun v hv => keeps_push hD hv

theorem keeps_replace {f : Machine → Value → Value} (hf : ∀ m v, (f m v).Meets D.scalar) :
    Keeps (Obeys D p) D.fault (replace f) fun _ => True := by
  refine Keeps.bind (keeps_pop hD) fun v hv => Keeps.bind Keeps.get fun m hm => ?_
  exact keeps_push hD (hf m v)

/-! ## Indexed access -/

theorem keeps_getIndexed : Keeps (Obeys D p) D.fault getIndexed fun _ => True := by
  refine Keeps.bind (keeps_pop hD) fun key hkey => Keeps.bind (keeps_pop hD) fun c hc => ?_
  refine Keeps.bind Keeps.get fun m hm => ?_
  refine Keeps.bind (keeps_liftAccess hD fun v hv => ?_) fun v hv => keeps_push hD hv
  exact hm.heap.get hv

theorem keeps_updateHeap {f : Heap → Except AccessError Heap}
    (hf : ∀ h other : Heap, h.Meets D.scalar → f h = .ok other → other.Meets D.scalar) :
    Keeps (Obeys D p) D.fault (updateHeap f) fun _ => True := by
  intro m hm
  cases hother : f m.heap with
  | error e =>
    simp only [updateHeap, hother]
    exact ⟨hm, hD.fault nofun nofun⟩
  | ok other =>
    simp only [updateHeap, hother]
    exact ⟨{ hm with heap := hf m.heap other hm.heap hother }, trivial⟩

theorem keeps_setIndexed : Keeps (Obeys D p) D.fault setIndexed fun _ => True := by
  refine Keeps.bind (keeps_pop hD) fun v hv => Keeps.bind (keeps_pop hD) fun key hkey => ?_
  refine Keeps.bind (keeps_pop hD) fun c hc => keeps_updateHeap hD fun h other hh hset => ?_
  exact hh.set hkey hv hset

theorem keeps_deleteIndexed : Keeps (Obeys D p) D.fault deleteIndexed fun _ => True := by
  refine Keeps.bind (keeps_pop hD) fun key hkey => Keeps.bind (keeps_pop hD) fun c hc => ?_
  refine keeps_updateHeap hD fun h other hh hdelete => ?_
  obtain ⟨⟨v, left⟩, hleft, rfl⟩ := exists_of_map_ok hdelete
  exact hh.delete hleft

/-! ## Instructions -/

theorem keeps_inspect : Keeps (Obeys D p) D.fault inspect fun _ => True := by
  refine Keeps.bind (keeps_pop hD) fun v hv => Keeps.bind Keeps.get fun m hm => ?_
  exact Keeps.bind (keeps_newString hD _) fun w hw => keeps_push hD hw

private theorem meets_shown (a : Addresses) (v : Value) : (a.shown v).Meets D.scalar := by
  unfold Addresses.shown
  split
  · exact hD.number _
  · exact hD.nil

/-- **Instructions that lead on to the next one.** -/
theorem keeps_operate {i : Instruction} (hi : D.Admits p i) :
    Keeps (Obeys D p) D.fault (operate i.opcode i.argument) fun _ => True := by
  obtain ⟨offset, op, arg⟩ := i
  have hi : D.Admits p ⟨offset, op, arg⟩ := hi
  show Keeps (Obeys D p) D.fault (operate op arg) fun _ => True
  cases op with
  | pushNil => exact keeps_push hD hD.nil
  | pushTrue | pushFalse => exact keeps_push hD (hD.bool _)
  | pushInt | pushNumber => exact keeps_push hD (hD.number _)
  | pushString => exact keeps_pushString hD (hi.missing rfl) (hi.string rfl)
  | makeArray =>
    refine Keeps.bind (keeps_take hD _) fun items hitems => ?_
    exact Keeps.bind (keeps_make fun h hh => ⟨trivial, hh.newArray hitems⟩)
      fun v hv => keeps_push hD hv
  | makeTable | makeFlaggedTable | makeDerivedTable | makeDerivedFlaggedTable =>
    exact keeps_makeTable hD _ _ _
  | pushFunction => exact keeps_pushFunction hD (hi.function rfl)
  | pop => exact Keeps.bind (keeps_pop hD) fun v hv => Keeps.pure trivial
  | dup => exact Keeps.bind (keeps_top hD) fun v hv => keeps_push hD hv
  | define => exact keeps_define hD
  | destructure => exact keeps_destructure hD _
  | load => exact keeps_loadVariable hD _
  | store => exact keeps_storeVariable hD _
  | enterScope => exact keeps_enterScope
  | leaveScope => exact keeps_leaveScope hD
  | neg => exact keeps_negate hD
  | not => exact keeps_replace hD (f := fun m v => .bool !(m.heap.truthy v)) fun m v => hD.bool _
  | add | sub | mul | div | mod | eq | ne | lt | le | gt | ge => exact keeps_operator hD _
  | get => exact keeps_getIndexed hD
  | set => exact keeps_setIndexed hD
  | delete => exact keeps_deleteIndexed hD
  | inspect => exact keeps_inspect hD
  | isNil => exact keeps_replace hD (f := fun _ v => .bool v.isNil) fun m v => hD.bool _
  | identity => exact keeps_replace hD fun m v => meets_shown hD m.config.addresses v
  | jump | jumpIf | jumpUnless | call | ret => exact Keeps.pure trivial

/-- **Every instruction that is admitted keeps the discipline**, and goes where it allows. -/
theorem keeps_execute {i : Instruction} (hi : D.Admits p i) :
    Keeps (Obeys D p) D.fault (execute i) (Flow.Allowed D) := by
  unfold execute
  split
  · next hop => exact keeps_jump hD (hi.target (.inl hop))
  · next hop => exact keeps_jumpWhen hD true (hi.target (.inr (.inl hop)))
  · next hop => exact keeps_jumpWhen hD false (hi.target (.inr (.inr hop)))
  · exact keeps_call hD _ hi.next
  · exact keeps_ret
  · exact Keeps.bind (keeps_operate hD hi) fun _ _ => Keeps.pure trivial

end Machine
end StackMachine
