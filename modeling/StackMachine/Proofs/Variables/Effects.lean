import StackMachine.Proofs.Assembly.Adds
import StackMachine.Proofs.Machine.Leads
import StackMachine.Proofs.Number.Integers
import StackMachine.Proofs.Variables.Actions

/-!
# What the instructions of actions do

A machine shows a variable state when its stack, variables, marks and heap are those of the state.
An instruction turns one state into another when a machine that shows the first and has room for a
value executes it and then shows the second; there is one lemma for each kind of instruction that
actions emit.
-/

namespace StackMachine

/-- The machine is in a variable state: its stack holds what was read above a nil that was never
taken off. -/
structure Machine.Shows (m : Machine) (s : VariableState) : Prop where
  stack : m.stack = #[.nil] ++ s.reads.toArray
  slots : m.slots = s.environment.slots
  marks : m.marks = s.environment.marks
  heap : m.heap = s.heap
  pristine : m.pristine = true

/-- The state in which a value was pushed. -/
def VariableState.push (s : VariableState) (v : Value) (heap : Heap) : VariableState :=
  { s with reads := s.reads ++ [v], heap }

theorem VariableState.length_push (s : VariableState) (v : Value) (heap : Heap) :
    (s.push v heap).reads.length = s.reads.length + 1 := by
  rw [push, List.length_append, List.length_singleton]

/-- Executing the instruction leads on, from one state to the other. -/
def Instruction.Turns (i : Instruction) (p : Program) (s t : VariableState) : Prop :=
  ∀ m : Machine, m.Shows s → m.program = p → m.stack.size < m.config.maxStack →
    ∃ n, Machine.execute i m = .ok .next n ∧ n.Shows t ∧ n.program = p ∧ n.config = m.config

/-- Whether an opcode decides itself where the machine goes next. -/
def Opcode.steers : Opcode → Bool
  | .jump | .jumpIf | .jumpUnless | .call | .ret => true
  | _ => false

namespace Machine

variable {m : Machine} {s : VariableState} {v : Value}

theorem execute_of_operate {i : Instruction} {n : Machine} (hop : i.opcode.steers = false)
    (h : operate i.opcode i.argument m = .ok () n) : execute i m = .ok .next n := by
  obtain ⟨offset, op, arg⟩ := i
  have hexecute : execute ⟨offset, op, arg⟩ = (do operate op arg; pure Flow.next) := by
    cases op <;> first | rfl | contradiction
  rw [hexecute]
  show EStateM.bind (operate op arg) _ m = _
  rw [EStateM.bind, h]
  rfl

/-! ## Pushing -/

theorem Shows.size_stack (h : m.Shows s) : m.stack.size = s.reads.length + 1 := by
  rw [h.stack, Array.size_append, List.size_toArray, Nat.add_comm]
  rfl

theorem Shows.back?_stack (h : m.Shows s) :
    m.stack.back? = some (s.reads.getLast?.getD .nil) := by
  rw [h.stack, Array.back?_append, List.back?_toArray]
  cases s.reads.getLast? <;> rfl

theorem Shows.push (h : m.Shows s) (v : Value) (heap : Heap) :
    Shows { m with stack := m.stack.push v, heap } (s.push v heap) where
  stack := by
    show m.stack.push v = _
    rw [h.stack, VariableState.push]
    simp
  slots := h.slots
  marks := h.marks
  heap := rfl
  pristine := h.pristine

theorem push_eq (hroom : m.stack.size < m.config.maxStack) :
    push v m = .ok () { m with stack := m.stack.push v } := by
  rw [push, if_neg (Nat.not_le.2 hroom)]

/-- A value that was made is pushed. -/
theorem make_push_eq (f : Heap → Value × Heap) (hroom : m.stack.size < m.config.maxStack) :
    (do push (← make f) : Exec Unit) m =
      .ok () { m with stack := m.stack.push (f m.heap).1, heap := (f m.heap).2 } :=
  push_eq (m := { m with heap := (f m.heap).2 }) hroom

/-- Taking nothing off the stack. -/
theorem Shows.take_zero (h : m.Shows s) : take 0 m = .ok #[] m := by
  have hsize : (m.stack.size != 0) = true := by
    rw [h.size_stack]
    rfl
  rw [take, if_neg (Nat.not_lt_zero _)]
  simp only [Nat.sub_zero, hsize, Bool.and_true]
  simp [Array.shrink_eq_take]

theorem pushString_eq {index : Nat} {e : PoolEntry} (he : m.program.strings[index]? = some e) :
    pushString index m = (do Machine.push (← make (·.newHashedString e.text e.hash))) m := by
  simp only [pushString, bind, EStateM.bind, get, getThe, MonadStateOf.get, EStateM.get, he]

theorem Shows.makeArray_eq (h : m.Shows s) :
    operate .makeArray (.u32 0) m = (do Machine.push (← make (·.newArray #[]))) m := by
  show (do let items ← take 0; Machine.push (← make (·.newArray items)) : Exec Unit) m = _
  simp only [bind, EStateM.bind, h.take_zero]

theorem Shows.makeTable_eq (h : m.Shows s) (flagged : Bool) :
    makeTable 0 false flagged m = (do Machine.push (← make (·.newTable {}))) m := by
  have hneed : tableNeed 0 false flagged = 0 := by cases flagged <;> rfl
  have htable (h : Heap) : tableOf h false flagged [] = .ok {} := by cases flagged <;> rfl
  simp only [makeTable, hneed, bind, EStateM.bind, h.take_zero, get, getThe, MonadStateOf.get,
    EStateM.get, htable]

theorem Shows.dup_eq (h : m.Shows s) :
    (do Machine.push (← top) : Exec Unit) m = Machine.push (s.reads.getLast?.getD .nil) m := by
  simp only [bind, EStateM.bind, top, h.back?_stack]

theorem loadVariable_eq {index : Nat} (hv : m.slots[index]? = some v) :
    loadVariable index m = push v m := by
  simp only [loadVariable, bind, EStateM.bind, get, getThe, MonadStateOf.get, EStateM.get, hv]

/-! ## Taking the pushed value off -/

theorem Shows.pop_eq {heap : Heap} (h : m.Shows (s.push v heap)) :
    pop m = .ok v { m with stack := m.stack.pop } := by
  have hback : m.stack.back? = some v := by
    rw [h.back?_stack, VariableState.push]
    simp
  have hsize : (m.stack.size != 1) = true := by
    have hstack := h.size_stack
    rw [VariableState.length_push] at hstack
    simp only [bne_iff_ne]
    omega
  rw [pop, hback]
  simp only [hsize, h.pristine, Bool.and_true]

theorem Shows.pop_stack {heap : Heap} (h : m.Shows (s.push v heap)) :
    m.stack.pop = #[.nil] ++ s.reads.toArray := by
  have hpushed : #[Value.nil] ++ (s.reads ++ [v]).toArray =
      (#[Value.nil] ++ s.reads.toArray).push v := by simp
  rw [h.stack, VariableState.push, hpushed, Array.pop_push]

end Machine

namespace Instruction

open Machine

variable {i : Instruction} {p : Program} {s : VariableState} {v : Value} {heap : Heap}

/-- An instruction that pushes a value which is there. -/
theorem turns_push (hop : i.opcode.steers = false)
    (h : ∀ m : Machine, m.Shows s → operate i.opcode i.argument m = push v m) :
    i.Turns p s (s.push v s.heap) := by
  intro m hm hp hroom
  have hpush : operate i.opcode i.argument m =
      .ok () { m with stack := m.stack.push v, heap := s.heap } := by
    rw [h m hm, push_eq hroom, ← hm.heap]
  exact ⟨_, execute_of_operate hop hpush, hm.push v s.heap, hp, rfl⟩

/-- An instruction that pushes a value which it makes. -/
theorem turns_make {f : Heap → Value × Heap} (hop : i.opcode.steers = false)
    (h : ∀ m : Machine, m.Shows s → m.program = p →
      operate i.opcode i.argument m = (do push (← make f)) m) :
    i.Turns p s (s.push (f s.heap).1 (f s.heap).2) := by
  intro m hm hp hroom
  have hmake : operate i.opcode i.argument m =
      .ok () { m with stack := m.stack.push (f s.heap).1, heap := (f s.heap).2 } := by
    rw [h m hm hp, make_push_eq f hroom, hm.heap]
  exact ⟨_, execute_of_operate hop hmake, hm.push _ _, hp, rfl⟩

/-- A function is pushed in place of its arity. -/
theorem turns_pushFunction (hop : i.opcode = .pushFunction) (arity : UInt16) :
    i.Turns p (s.push (.number (.ofNat arity.toNat)) heap)
      (s.push (.function ⟨UInt64.ofNat i.argument.toNat, arity⟩) heap) := by
  intro m hm hp hroom
  have harity : ((Value.number (.ofNat arity.toNat)).asNumber?).bind Number.toInt? =
      some (arity.toNat : Int) := Number.toInt?_ofNat (Nat.lt_trans arity.toNat_lt (by decide))
  have hrange : 0 ≤ (arity.toNat : Int) ∧ (arity.toNat : Int) ≤ 65535 := by
    have := arity.toNat_lt
    omega
  have hroom' : m.stack.pop.size < m.config.maxStack := by
    rw [Array.size_pop]
    omega
  refine ⟨{ m with
    stack := m.stack.pop.push (.function ⟨UInt64.ofNat i.argument.toNat, arity⟩) },
    ?_, ?_, hp, rfl⟩
  · refine execute_of_operate (by rw [hop]; rfl) ?_
    rw [hop]
    show EStateM.bind pop _ m = _
    rw [EStateM.bind, hm.pop_eq]
    simp only [harity, if_pos hrange, Int.toNat_natCast, UInt16.ofNat_toNat]
    exact push_eq (m := { m with stack := m.stack.pop }) hroom'
  · refine ⟨?_, hm.slots, hm.marks, hm.heap, hm.pristine⟩
    show m.stack.pop.push _ = _
    rw [hm.pop_stack, VariableState.push]
    simp

theorem turns_define (hop : i.opcode = .define) (x : Variable) :
    i.Turns p (s.push v heap)
      { s with environment := .declared x v s.environment, heap } := by
  intro m hm hp hroom
  refine ⟨{ m with stack := m.stack.pop, slots := m.slots.push v }, ?_, ?_, hp, rfl⟩
  · refine execute_of_operate (by rw [hop]; rfl) ?_
    rw [hop]
    show EStateM.bind pop _ m = _
    rw [EStateM.bind, hm.pop_eq]
    rfl
  · exact {
      stack := hm.pop_stack
      slots := congrArg (·.push v) hm.slots
      marks := hm.marks
      heap := hm.heap
      pristine := hm.pristine }

theorem turns_store (hop : i.opcode = .store) {e : Environment}
    (hlt : i.argument.toNat < s.environment.size)
    (hslots : e.slots = s.environment.slots.setIfInBounds i.argument.toNat v)
    (hmarks : e.marks = s.environment.marks) :
    i.Turns p (s.push v heap) { s with environment := e, heap } := by
  intro m hm hp hroom
  refine ⟨{ m with stack := m.stack.pop, slots := m.slots.setIfInBounds i.argument.toNat v },
    ?_, ?_, hp, rfl⟩
  · have hinside : i.argument.toNat < m.slots.size := by
      rw [hm.slots]
      exact (s.environment.size_slots).symm ▸ hlt
    refine execute_of_operate (by rw [hop]; rfl) ?_
    rw [hop]
    show EStateM.bind pop _ m = _
    rw [EStateM.bind, hm.pop_eq]
    show (if i.argument.toNat < m.slots.size then _ else _ : Exec Unit) _ = _
    rw [if_pos hinside]
    rfl
  · refine ⟨hm.pop_stack, ?_, ?_, hm.heap, hm.pristine⟩
    · rw [hslots]
      exact congrArg (·.setIfInBounds i.argument.toNat v) hm.slots
    · rw [hmarks]
      exact hm.marks

theorem turns_enterScope (hop : i.opcode = .enterScope) :
    i.Turns p s { s with environment := .scope s.environment } := by
  intro m hm hp hroom
  refine ⟨{ m with marks := m.slots.size :: m.marks }, ?_, ?_, hp, rfl⟩
  · refine execute_of_operate (by rw [hop]; rfl) ?_
    rw [hop]
    rfl
  · refine ⟨hm.stack, hm.slots, ?_, hm.heap, hm.pristine⟩
    show m.slots.size :: m.marks = s.environment.size :: s.environment.marks
    rw [hm.slots, hm.marks, Environment.size_slots]

theorem turns_leaveScope (hop : i.opcode = .leaveScope) {e : Environment}
    (he : s.environment.leave? = some e) : i.Turns p s { s with environment := e } := by
  obtain ⟨hmarks, hslots, -⟩ := Environment.marks_of_leave? he
  intro m hm hp hroom
  refine ⟨{ m with marks := e.marks, slots := m.slots.shrink e.size }, ?_, ?_, hp, rfl⟩
  · refine execute_of_operate (by rw [hop]; rfl) ?_
    rw [hop]
    show leaveScope m = _
    rw [leaveScope, hm.marks, hmarks]
  · refine ⟨hm.stack, ?_, rfl, hm.heap, hm.pristine⟩
    show m.slots.shrink e.size = e.slots
    rw [hm.slots, hslots]

end Instruction
end StackMachine
