import StackMachine.Proofs.Machine.Keeps

/-!
# The two phases of an instruction

An instruction first prepares: it takes its operands off the stack and makes new strings and
containers, and all the while it may fail. Then it ends with one action that does not fail any more.
What it has done when it fails is therefore what it does to prepare (`prepared_of_execute_error`),
and what it has done when it succeeds is one action more, of the kind that its opcode has
(`completes_of_execute_ok`).
-/

namespace StackMachine

/-! ## Preparing -/

/-- A heap after more containers were made in it: those that it had are as they were. -/
structure Heap.Grows (h k : Heap) : Prop where
  arrays : ∃ made, k.arrays = h.arrays ++ made
  tables : ∃ made, k.tables = h.tables ++ made

namespace Heap

variable {h k l : Heap}

theorem Grows.refl (h : Heap) : h.Grows h :=
  ⟨⟨#[], Array.append_empty.symm⟩, ⟨#[], Array.append_empty.symm⟩⟩

theorem Grows.trans (hhk : h.Grows k) (hkl : k.Grows l) : h.Grows l := by
  obtain ⟨⟨arrays, harrays⟩, ⟨tables, htables⟩⟩ := hhk
  obtain ⟨⟨arrays', harrays'⟩, ⟨tables', htables'⟩⟩ := hkl
  constructor
  · exact ⟨arrays ++ arrays', by rw [harrays', harrays, Array.append_assoc]⟩
  · exact ⟨tables ++ tables', by rw [htables', htables, Array.append_assoc]⟩

/-- An array that was there is there still, and has the same items. -/
theorem Grows.getElem?_arrays (hhk : h.Grows k) {id : Nat} (hid : id < h.arrays.size) :
    k.arrays[id]? = h.arrays[id]? := by
  obtain ⟨made, hmade⟩ := hhk.arrays
  rw [hmade, Array.getElem?_append_left hid]

/-- A table that was there is there still, and has the same entries and prototype. -/
theorem Grows.getElem?_tables (hhk : h.Grows k) {id : Nat} (hid : id < h.tables.size) :
    k.tables[id]? = h.tables[id]? := by
  obtain ⟨made, hmade⟩ := hhk.tables
  rw [hmade, Array.getElem?_append_left hid]

theorem grows_newString (h : Heap) (text : String) : h.Grows (h.newString text).2 :=
  ⟨(Grows.refl h).arrays, (Grows.refl h).tables⟩

theorem grows_newHashedString (h : Heap) (text : String) (hash : UInt64) :
    h.Grows (h.newHashedString text hash).2 :=
  ⟨(Grows.refl h).arrays, (Grows.refl h).tables⟩

theorem grows_newArray (h : Heap) (items : Array Value) : h.Grows (h.newArray items).2 :=
  ⟨⟨#[items], Array.push_eq_append⟩, (Grows.refl h).tables⟩

theorem grows_newTable (h : Heap) (t : Table) : h.Grows (h.newTable t).2 :=
  ⟨(Grows.refl h).arrays, ⟨#[t], Array.push_eq_append⟩⟩

end Heap

/-- A machine after operands were taken off its stack and values were made: its stack was cut at
the top, its heap has grown, and nothing else has changed. What is recorded of the nil at the bottom
is that it was taken if the stack is empty now. -/
structure Machine.Prepared (m n : Machine) : Prop where
  config : n.config = m.config
  program : n.program = m.program
  ip : n.ip = m.ip
  steps : n.steps = m.steps
  stack : n.stack.toList <+: m.stack.toList
  pristine : (m.pristine = true → 0 < m.stack.size) →
    n.pristine = (m.pristine && n.stack.size != 0)
  slots : n.slots = m.slots
  marks : n.marks = m.marks
  frames : n.frames = m.frames
  heap : m.heap.Grows n.heap

theorem Machine.Prepared.refl (m : Machine) : m.Prepared m where
  config := rfl
  program := rfl
  ip := rfl
  steps := rfl
  stack := List.prefix_refl _
  pristine := by
    intro hbottom
    cases hflag : m.pristine with
    | false => rfl
    | true => simp [Nat.ne_of_gt (hbottom hflag)]
  slots := rfl
  marks := rfl
  frames := rfl
  heap := .refl _

/-! ## Ending -/

/-- What the last action of an instruction is about. -/
inductive Ending where
  /-- A value is pushed. -/
  | push
  /-- Nothing is left to be done. -/
  | drop
  /-- Variables are defined. -/
  | define
  /-- A variable is assigned. -/
  | store
  | enterScope
  | leaveScope
  /-- The machine goes to an address, or on to the next instruction. -/
  | branch
  | call
  | ret
  /-- A container is changed. -/
  | write
deriving DecidableEq

/-- How an opcode ends. -/
def Opcode.ending : Opcode → Ending
  | .pop => .drop
  | .define | .destructure => .define
  | .store => .store
  | .enterScope => .enterScope
  | .leaveScope => .leaveScope
  | .jump | .jumpIf | .jumpUnless => .branch
  | .call => .call
  | .ret => .ret
  | .set | .delete => .write
  | _ => .push

/-- The last action of an instruction after which control may come back to an offset: where the
machine goes, and what becomes of it. -/
inductive Machine.Completes (m : Machine) (back : Nat) : Ending → Flow → Machine → Prop
  | push (v : Value) (hroom : m.stack.size < m.config.maxStack) :
      m.Completes back .push .next { m with stack := m.stack.push v }
  | drop : m.Completes back .drop .next m
  | define (added : Array Value) :
      m.Completes back .define .next { m with slots := m.slots ++ added }
  | store (index : Nat) (v : Value) :
      m.Completes back .store .next { m with slots := m.slots.setIfInBounds index v }
  | enterScope :
      m.Completes back .enterScope .next { m with marks := m.slots.size :: m.marks }
  | leaveScope {mark : Nat} {marks : List Nat} (hmarks : m.marks = mark :: marks) :
      m.Completes back .leaveScope .next { m with marks, slots := m.slots.shrink mark }
  | jump {target : Nat} (hinside : target ≤ m.program.code.size) :
      m.Completes back .branch (.jump target) m
  | pass : m.Completes back .branch .next m
  | call {slot : Nat} {f : Function} (hcallee : m.stack[slot]? = some (.function f))
      (hroom : m.frames.size < m.config.maxStack)
      (hinside : f.address.toNat ≤ m.program.code.size) :
      m.Completes back .call (.jump f.address.toNat)
        { m with stack := m.stack.eraseIdxIfInBounds slot
                 pristine := m.pristine && m.stack.size != 1
                 frames := m.frames.push back }
  | ret {target : Nat} (hback : m.frames.back? = some target) :
      m.Completes back .ret (.jump target) { m with frames := m.frames.pop }
  | halt (hnone : m.frames.back? = none) : m.Completes back .ret .halt m
  | write (heap : Heap) : m.Completes back .write .next { m with heap }

namespace Exec

variable {α β : Type} {m₀ : Machine} {back : Nat} {kind : Ending} {Q : α → Prop}

/-- A computation that prepares for an instruction that began in `m₀`. -/
def Prepares (m₀ : Machine) (x : Exec α) (Q : α → Prop) : Prop :=
  Keeps m₀.Prepared (fun _ => True) x Q

/-- A computation that brings an instruction that began in `m₀` to its end: where it fails it has
only prepared. -/
def Ends (m₀ : Machine) (back : Nat) (kind : Ending) (x : Exec α) (flow : α → Flow) : Prop :=
  ∀ m, m₀.Prepared m →
    match x m with
    | .ok a n => ∃ k, m₀.Prepared k ∧ k.Completes back kind (flow a) n
    | .error _ n => m₀.Prepared n

theorem Ends.throw {e : Fault} {flow : α → Flow} :
    Ends m₀ back kind (throw e : Exec α) flow :=
  fun _ hm => hm

/-- What is done last comes after all that prepares for it. -/
theorem Ends.bind {x : Exec α} {f : α → Exec β} {flow : β → Flow} (hx : Prepares m₀ x Q)
    (hf : ∀ a, Q a → Ends m₀ back kind (f a) flow) : Ends m₀ back kind (x >>= f) flow := by
  intro m hm
  have hfirst := hx m hm
  show match EStateM.bind x f m with
    | .ok b n => ∃ k, m₀.Prepared k ∧ k.Completes back kind (flow b) n
    | .error _ n => m₀.Prepared n
  unfold EStateM.bind
  cases hrun : x m with
  | error e n =>
    rw [hrun] at hfirst
    exact hfirst.1
  | ok a n =>
    rw [hrun] at hfirst
    exact hf a hfirst.2 n hfirst.1

/-- After the last action it is only said where the machine goes. -/
theorem Ends.andThen {x : Exec α} {f : α → β} {flow : β → Flow}
    (hx : Ends m₀ back kind x fun a => flow (f a)) :
    Ends m₀ back kind (x >>= fun a => pure (f a)) flow := by
  intro m hm
  have hfirst := hx m hm
  show match EStateM.bind x (fun a => pure (f a)) m with
    | .ok b n => ∃ k, m₀.Prepared k ∧ k.Completes back kind (flow b) n
    | .error _ n => m₀.Prepared n
  unfold EStateM.bind
  cases hrun : x m with
  | error e n =>
    rw [hrun] at hfirst
    exact hfirst
  | ok a n =>
    rw [hrun] at hfirst
    exact hfirst

/-- An action that cannot fail. -/
theorem Ends.modify {f : Machine → Machine}
    (hf : ∀ m : Machine, m.Completes back kind .next (f m)) :
    Ends m₀ back kind (modify f) fun _ => .next :=
  fun m hm => ⟨m, hm, hf m⟩

end Exec

namespace Machine

open Exec (Keeps Prepares Ends)

variable {m₀ : Machine} {back : Nat}

/-! ## Computations that prepare -/

theorem prepares_pop : Prepares m₀ pop fun _ => True := by
  intro m hm
  cases htop : m.stack.back? with
  | none =>
    simp only [pop, htop]
    exact ⟨hm, trivial⟩
  | some v =>
    simp only [pop, htop]
    refine ⟨{ hm with stack := ?_, pristine := fun hbottom => ?_ }, trivial⟩
    · rw [Array.toList_pop]
      exact (List.dropLast_prefix _).trans hm.stack
    · have hsome : 0 < m.stack.size := by
        have hne : m.stack ≠ #[] := fun hempty => by simp [hempty] at htop
        exact Array.size_pos_iff.2 hne
      rw [hm.pristine hbottom, Array.size_pop]
      grind

theorem prepares_take (n : Nat) : Prepares m₀ (take n) fun _ => True := by
  intro m hm
  by_cases hshort : m.stack.size < n
  · simp only [take, if_pos hshort]
    exact ⟨hm, trivial⟩
  · simp only [take, if_neg hshort]
    refine ⟨{ hm with stack := ?_, pristine := fun hbottom => ?_ }, trivial⟩
    · rw [Array.shrink_eq_take, Array.take, Array.toList_extract, List.extract_eq_take_drop]
      exact (List.take_prefix _ _).trans hm.stack
    · rw [hm.pristine hbottom, Array.size_shrink]
      grind

theorem prepares_top : Prepares m₀ top fun _ => True := by
  intro m hm
  unfold top
  cases m.stack.back? with
  | none => exact ⟨hm, trivial⟩
  | some v => exact ⟨hm, trivial⟩

theorem prepares_make {f : Heap → Value × Heap} (hf : ∀ h : Heap, h.Grows (f h).2) :
    Prepares m₀ (make f) fun _ => True :=
  fun m hm => ⟨{ hm with heap := hm.heap.trans (hf m.heap) }, trivial⟩

theorem prepares_liftAccess {α : Type} (result : Except AccessError α) :
    Prepares m₀ (liftAccess result) fun _ => True := by
  intro m hm
  cases result with
  | error e => exact ⟨hm, trivial⟩
  | ok a => exact ⟨hm, trivial⟩

theorem prepares_get : Prepares m₀ get fun _ => True :=
  fun _ hm => ⟨hm, trivial⟩

theorem prepares_throw {α : Type} {Q : α → Prop} {e : Fault} :
    Prepares m₀ (throw e : Exec α) Q :=
  Keeps.throw trivial

theorem prepares_checkTarget (target : Nat) :
    Prepares m₀ (checkTarget target) fun _ => target ≤ m₀.program.code.size := by
  intro m hm
  by_cases hinside : target ≤ m.program.code.size
  · simp only [checkTarget, if_pos hinside]
    exact ⟨hm, hm.program ▸ hinside⟩
  · simp only [checkTarget, if_neg hinside]
    exact ⟨hm, trivial⟩

/-- An operator may make a new string. -/
theorem prepares_binary (op : Opcode) (a b : Value) :
    Prepares m₀ (binary op a b) fun _ => True := by
  unfold binary
  refine Keeps.bind prepares_get fun m _ => ?_
  dsimp only
  split
  · exact Keeps.pure trivial
  · exact Keeps.pure trivial
  · split
    · exact Keeps.pure trivial
    · exact prepares_throw
  · exact prepares_make fun h => h.grows_newString _
  · split
    · exact Keeps.pure trivial
    · exact prepares_throw
  · exact prepares_throw

/-! ## Instructions that push -/

theorem ends_push (v : Value) : Ends m₀ back .push (push v) fun _ => .next := by
  intro m hm
  by_cases hfull : m.config.maxStack ≤ m.stack.size
  · simp only [push, if_pos hfull]
    exact hm
  · simp only [push, if_neg hfull]
    exact ⟨m, hm, .push v (Nat.lt_of_not_le hfull)⟩

theorem ends_make {f : Heap → Value × Heap} (hf : ∀ h : Heap, h.Grows (f h).2) :
    Ends m₀ back .push (do push (← make f)) fun _ => .next :=
  Ends.bind (prepares_make hf) fun v _ => ends_push v

theorem ends_pushString (index : Nat) :
    Ends m₀ back .push (pushString index) fun _ => .next := by
  unfold pushString
  refine Ends.bind prepares_get fun m _ => ?_
  split
  · exact Ends.throw
  · next e _ => exact ends_make fun h => h.grows_newHashedString e.text e.hash

theorem ends_pushFunction (address : Nat) :
    Ends m₀ back .push (pushFunction address) fun _ => .next := by
  unfold pushFunction
  refine Ends.bind prepares_pop fun arity _ => ?_
  split
  · split
    · exact ends_push _
    · exact Ends.bind prepares_get fun m _ => Ends.throw
  · exact Ends.bind prepares_get fun m _ => Ends.throw

/-- A table is complete before it is in the heap. -/
theorem ends_makeTable (n : Nat) (derived flagged : Bool) :
    Ends m₀ back .push (makeTable n derived flagged) fun _ => .next := by
  unfold makeTable
  refine Ends.bind (prepares_take _) fun items _ => Ends.bind prepares_get fun m _ => ?_
  split
  · next t _ => exact ends_make fun h => h.grows_newTable t
  · exact Ends.throw

theorem ends_loadVariable (index : Nat) :
    Ends m₀ back .push (loadVariable index) fun _ => .next := by
  unfold loadVariable
  refine Ends.bind prepares_get fun m _ => ?_
  split
  · exact ends_push _
  · exact Ends.throw

theorem ends_negate : Ends m₀ back .push negate fun _ => .next := by
  unfold negate
  refine Ends.bind prepares_pop fun v _ => ?_
  split
  · exact ends_push _
  · exact Ends.throw

theorem ends_operator (op : Opcode) : Ends m₀ back .push (operator op) fun _ => .next :=
  Ends.bind prepares_pop fun b _ => Ends.bind prepares_pop fun a _ =>
    Ends.bind (prepares_binary op a b) fun v _ => ends_push v

theorem ends_replace (f : Machine → Value → Value) :
    Ends m₀ back .push (replace f) fun _ => .next :=
  Ends.bind prepares_pop fun _ _ => Ends.bind prepares_get fun _ _ => ends_push _

theorem ends_getIndexed : Ends m₀ back .push getIndexed fun _ => .next :=
  Ends.bind prepares_pop fun _ _ => Ends.bind prepares_pop fun _ _ =>
    Ends.bind prepares_get fun _ _ => Ends.bind (prepares_liftAccess _) fun v _ => ends_push v

theorem ends_inspect : Ends m₀ back .push inspect fun _ => .next :=
  Ends.bind prepares_pop fun _ _ => Ends.bind prepares_get fun _ _ =>
    ends_make fun h => h.grows_newString _

/-! ## Instructions that end in another way -/

theorem ends_define : Ends m₀ back .define define fun _ => .next :=
  Ends.bind prepares_pop fun v _ => Ends.modify fun m => by
    rw [Array.push_eq_append]
    exact .define #[v]

theorem ends_destructure (expected : Nat) :
    Ends m₀ back .define (destructure expected) fun _ => .next := by
  unfold destructure
  refine Ends.bind prepares_pop fun v _ => ?_
  split
  · refine Ends.bind prepares_get fun m _ => ?_
    dsimp only
    split
    · exact Ends.modify fun n => .define _
    · exact Ends.throw
  · exact Ends.throw

theorem ends_storeVariable (index : Nat) :
    Ends m₀ back .store (storeVariable index) fun _ => .next := by
  unfold storeVariable
  refine Ends.bind prepares_pop fun v _ => Ends.bind prepares_get fun m _ => ?_
  dsimp only
  split
  · exact Ends.modify fun n => .store index v
  · exact Ends.throw

theorem ends_leaveScope : Ends m₀ back .leaveScope leaveScope fun _ => .next := by
  intro m hm
  unfold leaveScope
  cases hmarks : m.marks with
  | nil => exact hm
  | cons mark marks => exact ⟨m, hm, .leaveScope hmarks⟩

theorem ends_updateHeap (f : Heap → Except AccessError Heap) :
    Ends m₀ back .write (updateHeap f) fun _ => .next := by
  intro m hm
  unfold updateHeap
  cases f m.heap with
  | error e => exact hm
  | ok heap => exact ⟨m, hm, .write heap⟩

theorem ends_setIndexed : Ends m₀ back .write setIndexed fun _ => .next :=
  Ends.bind prepares_pop fun _ _ => Ends.bind prepares_pop fun _ _ =>
    Ends.bind prepares_pop fun _ _ => ends_updateHeap _

theorem ends_deleteIndexed : Ends m₀ back .write deleteIndexed fun _ => .next :=
  Ends.bind prepares_pop fun _ _ => Ends.bind prepares_pop fun _ _ => ends_updateHeap _

theorem ends_jump (target : Nat) : Ends m₀ back .branch (jump target) id :=
  Ends.bind (prepares_checkTarget target) fun _ hinside m hm =>
    ⟨m, hm, .jump (hm.program.symm ▸ hinside)⟩

theorem ends_jumpWhen (truth : Bool) (target : Nat) :
    Ends m₀ back .branch (jumpWhen truth target) id := by
  refine Ends.bind (prepares_checkTarget target) fun _ hinside => ?_
  refine Ends.bind prepares_pop fun v _ => Ends.bind prepares_get fun n _ m hm => ?_
  refine ⟨m, hm, ?_⟩
  by_cases htaken : n.heap.truthy v = truth
  · simp only [if_pos htaken]
    exact .jump (hm.program.symm ▸ hinside)
  · simp only [if_neg htaken]
    exact .pass

theorem ends_call (count : Nat) : Ends m₀ back .call (call count back) id := by
  intro m hm
  unfold call
  by_cases hshort : m.stack.size < count + 1
  · rw [if_pos hshort]
    exact hm
  · rw [if_neg hshort]
    have hslot : m.stack.size - count - 1 < m.stack.size := by omega
    have hcallee : m.stack[m.stack.size - count - 1]? =
        some (m.stack.getD (m.stack.size - count - 1) .nil) := by
      rw [Array.getElem?_eq_getElem hslot, Array.getD, dif_pos hslot]
      rfl
    dsimp only
    generalize m.stack.getD (m.stack.size - count - 1) .nil = callee at hcallee ⊢
    rcases callee with (_ | _ | _ | _ | f) | _
    case scalar.function =>
      -- Every check comes before the function is taken from below its arguments.
      by_cases harity : f.arity.toNat ≠ count
      · simp only [if_pos harity]
        exact hm
      · by_cases hdeep : m.config.maxStack ≤ m.frames.size
        · simp only [if_neg harity, if_pos hdeep]
          exact hm
        · by_cases houtside : m.program.code.size < f.address.toNat
          · simp only [if_neg harity, if_neg hdeep, if_pos houtside]
            exact hm
          · simp only [if_neg harity, if_neg hdeep, if_neg houtside]
            exact ⟨m, hm, .call hcallee (Nat.lt_of_not_le hdeep) (Nat.le_of_not_lt houtside)⟩
    all_goals exact hm

theorem ends_ret : Ends m₀ back .ret ret id := by
  intro m hm
  unfold ret
  cases hback : m.frames.back? with
  | none => exact ⟨m, hm, .halt hback⟩
  | some target => exact ⟨m, hm, .ret hback⟩

/-! ## Every instruction -/

theorem ends_operate (op : Opcode) (a : Argument)
    (hop : op.ending ≠ .branch ∧ op.ending ≠ .call ∧ op.ending ≠ .ret) :
    Ends m₀ back op.ending (operate op a) fun _ => .next := by
  cases op with
  | pushNil | pushTrue | pushFalse | pushInt | pushNumber => exact ends_push _
  | pushString => exact ends_pushString _
  | makeArray =>
    exact Ends.bind (prepares_take _) fun items _ => ends_make fun h => h.grows_newArray items
  | makeTable | makeFlaggedTable | makeDerivedTable | makeDerivedFlaggedTable =>
    exact ends_makeTable _ _ _
  | pushFunction => exact ends_pushFunction _
  | pop => exact Ends.bind prepares_pop fun _ _ m hm => ⟨m, hm, .drop⟩
  | dup => exact Ends.bind prepares_top fun v _ => ends_push v
  | define => exact ends_define
  | destructure => exact ends_destructure _
  | load => exact ends_loadVariable _
  | store => exact ends_storeVariable _
  | enterScope => exact Ends.modify fun m => .enterScope
  | leaveScope => exact ends_leaveScope
  | neg => exact ends_negate
  | not => exact ends_replace fun m v => .bool !(m.heap.truthy v)
  | isNil => exact ends_replace fun _ v => .bool v.isNil
  | identity => exact ends_replace fun m v => m.config.addresses.shown v
  | add | sub | mul | div | mod | eq | ne | lt | le | gt | ge => exact ends_operator _
  | get => exact ends_getIndexed
  | set => exact ends_setIndexed
  | delete => exact ends_deleteIndexed
  | inspect => exact ends_inspect
  | jump | jumpIf | jumpUnless => exact absurd rfl hop.1
  | call => exact absurd rfl hop.2.1
  | ret => exact absurd rfl hop.2.2

/-- **Every instruction** fails while it prepares, or ends as its opcode does. -/
theorem ends_execute (m₀ : Machine) (i : Instruction) :
    Ends m₀ i.next i.opcode.ending (execute i) id := by
  have hlead (hop : i.opcode.ending ≠ .branch ∧ i.opcode.ending ≠ .call ∧ i.opcode.ending ≠ .ret) :
      Ends m₀ i.next i.opcode.ending
        (do operate i.opcode i.argument; pure Flow.next : Exec Flow) id :=
    Ends.andThen (ends_operate i.opcode i.argument hop)
  obtain ⟨offset, op, arg⟩ := i
  cases op with
  | jump => exact ends_jump _
  | jumpIf | jumpUnless => exact ends_jumpWhen _ _
  | call => exact ends_call _
  | ret => exact ends_ret
  | _ => exact hlead ⟨nofun, nofun, nofun⟩

variable {i : Instruction} {m n : Machine}

/-- An instruction that fails has only prepared. -/
theorem prepared_of_execute_error {why : Fault} (h : execute i m = .error why n) :
    m.Prepared n := by
  have hends := ends_execute m i m (.refl m)
  rwa [h] at hends

/-- An instruction that succeeds has prepared and then done what its opcode ends with. -/
theorem completes_of_execute_ok {flow : Flow} (h : execute i m = .ok flow n) :
    ∃ k, m.Prepared k ∧ k.Completes i.next i.opcode.ending flow n := by
  have hends := ends_execute m i m (.refl m)
  rwa [h] at hends

/-- The last action of an instruction changes neither the settings nor the count of steps. -/
theorem Completes.keeps {back : Nat} {kind : Ending} {flow : Flow}
    (h : m.Completes back kind flow n) : n.config = m.config ∧ n.steps = m.steps := by
  cases h <;> exact ⟨rfl, rfl⟩

/-- An instruction that succeeds changes neither the settings nor the count of steps. -/
theorem keeps_of_execute_ok {flow : Flow} (h : execute i m = .ok flow n) :
    n.config = m.config ∧ n.steps = m.steps := by
  obtain ⟨k, hprepared, hcompletes⟩ := completes_of_execute_ok h
  obtain ⟨hconfig, hsteps⟩ := hcompletes.keeps
  exact ⟨hconfig.trans hprepared.config, hsteps.trans hprepared.steps⟩

/-- **An instruction that fails changes nothing but operands.** The variables, the marks of the open
scopes, the return addresses and the program are as before, and so is every array and every table
that was there; the stack has at most lost values at its top. -/
theorem failed_instruction_takes_operands_only {why : Fault} (h : execute i m = .error why n) :
    n.slots = m.slots ∧ n.marks = m.marks ∧ n.frames = m.frames ∧ n.program = m.program ∧
      (∀ id < m.heap.arrays.size, n.heap.arrays[id]? = m.heap.arrays[id]?) ∧
      (∀ id < m.heap.tables.size, n.heap.tables[id]? = m.heap.tables[id]?) ∧
      n.stack.toList <+: m.stack.toList := by
  have hprepared := prepared_of_execute_error h
  exact ⟨hprepared.slots, hprepared.marks, hprepared.frames, hprepared.program,
    fun _ hid => hprepared.heap.getElem?_arrays hid,
    fun _ hid => hprepared.heap.getElem?_tables hid, hprepared.stack⟩

/-- A table is not made when its second key is an array: the four operands are gone, and the array,
the table and the variable that were there are not touched. -/
theorem rejected_key_takes_operands_only :
    let key : Entry := ⟨.bool true, .array 0, ⟨true, false⟩⟩
    let m : Machine := {
      stack := #[.nil, .number .zero, .table 0, .array 0, .bool true]
      slots := #[.array 0], marks := [0], frames := #[7]
      heap := { arrays := #[#[.nil, .table 0]], tables := #[{ entries := [key] }] } }
    ∃ n, execute ⟨0, .makeTable, .u32 2⟩ m = .error (.access (.notHashable .array)) n ∧
      n.stack = #[.nil] ∧ n.slots = m.slots ∧ n.marks = m.marks ∧ n.frames = m.frames ∧
      n.heap.arrays[0]? = some #[.nil, .table 0] ∧
      n.heap.tables[0]? = some { entries := [key] } := by
  intro key m
  obtain ⟨n, hn, hstack⟩ : ∃ n, execute ⟨0, .makeTable, .u32 2⟩ m =
      .error (.access (.notHashable .array)) n ∧ n.stack = #[.nil] := ⟨_, rfl, rfl⟩
  obtain ⟨hslots, hmarks, hframes, -, harrays, htables, -⟩ :=
    failed_instruction_takes_operands_only hn
  exact ⟨n, hn, hstack, hslots, hmarks, hframes, harrays 0 (by decide), htables 0 (by decide)⟩

end Machine
end StackMachine
