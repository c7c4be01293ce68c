import StackMachine.Proofs.Assembly.Finish
import StackMachine.Proofs.Assembly.Pool

/-!
# What a finished program is made of

The code of a finished program is a sequence of operations, and its pool is in the order of that
sequence: every text that is emitted goes to the end of the pool, so the string operands are the
places of the pool one after another. A program is therefore determined by its operations and the
texts of its pool (`Program.MadeOf`).
-/

namespace StackMachine

/-! ## String operands -/

/-- The place in the pool that a string operand names. -/
def Argument.textIndex? : Argument → Option Nat
  | .string index => some index.toNat
  | _ => Option.none

/-- The place in the pool that the operand of an emission names. -/
def Emission.textIndex? : Emission → Option Nat
  | operation _ argument => argument.textIndex?
  | _ => none

/-- The string operands of operations, in their order. -/
def textIndices (xs : List (Opcode × Argument)) : List Nat := xs.filterMap fun x => x.2.textIndex?

theorem textIndices_cons (x : Opcode × Argument) (xs : List (Opcode × Argument)) :
    textIndices (x :: xs) = x.2.textIndex?.toList ++ textIndices xs := by
  rw [textIndices, List.filterMap_cons]
  cases x.2.textIndex? <;> rfl

/-- Addresses of labels are no string operands. -/
theorem textIndices_filterMap_operation? (address : Label → Nat) (es : List Emission) :
    textIndices (es.filterMap (Emission.operation? address)) =
      es.filterMap Emission.textIndex? := by
  rw [textIndices, List.filterMap_filterMap]
  congr
  funext e
  cases e <;> rfl

namespace Assembly

variable {a b : Assembly} {steps : List AssemblyStep}

/-- **A step names the places that it fills.** -/
theorem textIndices_perform {step : AssemblyStep} {reply : AssemblyReply}
    (h : a.perform step = .ok (reply, b)) :
    (step.emission? a).toList.filterMap Emission.textIndex? =
      List.range' a.strings.size step.pooled.size := by
  cases step with
  | emitWith op imm =>
    obtain ⟨c, hemit, ⟨⟩⟩ := exists_of_map_ok h
    cases imm with
    | text s =>
      have hindex := toNat_index_of_emitWith hemit
      simp [AssemblyStep.emission?, AssemblyStep.pooled, Immediate.argument, Immediate.pooled,
        Emission.textIndex?, Argument.textIndex?, hindex]
    | _ => rfl
  | _ => rfl

/-- **The string operands that steps emit** are the places of the texts that they add. -/
theorem textIndices_emittedAll (a : Assembly) (steps : List AssemblyStep) :
    (a.emittedAll steps).filterMap Emission.textIndex? =
      List.range' a.strings.size ((a.afterAll steps).strings.size - a.strings.size) := by
  induction steps generalizing a with
  | nil => simp [emittedAll, afterAll]
  | cons step steps ih =>
    have hafterAll : a.afterAll (step :: steps) = (a.after step).afterAll steps := rfl
    obtain ⟨added, hadded, -⟩ := exists_strings_afterAll (a.after step) steps
    have hsize := congrArg Array.size hadded
    rw [Array.size_append] at hsize
    rw [emittedAll, List.filterMap_append, ih, hafterAll, emitted]
    cases hstep : a.perform step with
    | error e =>
      have hafter : a.after step = a := by rw [after, hstep]
      rw [hafter]
      rfl
    | ok r =>
      obtain ⟨reply, c⟩ := r
      have hafter : a.after step = c := by rw [after, hstep]
      have hstrings := congrArg Array.size (strings_perform hstep)
      rw [Array.size_append] at hstrings
      rw [hafter] at hsize ⊢
      show (step.emission? a).toList.filterMap Emission.textIndex? ++ _ = _
      rw [textIndices_perform hstep, hstrings, List.range'_append_1]
      congr 1
      omega

end Assembly

/-! ## Operations and texts -/

/-- A program is made of these operations: they fill its code, their string operands are the places
of its pool in order, and every entry of the pool was made from its text. -/
structure Program.MadeOf (p : Program) (xs : List (Opcode × Argument)) : Prop where
  shaped : ∀ x ∈ xs, x.2.shape = x.1.shape
  code : p.code.toList = xs.flatMap operationBytes
  indices : textIndices xs = List.range p.strings.size
  genuine : ∀ e ∈ p.strings, e.Genuine

/-- **Every program that whole instructions assemble is made of operations.** -/
theorem Assembly.exists_madeOf {steps : List AssemblyStep} {p : Program}
    (hraw : ∀ l, .referTo l ∉ steps) (hp : (afterAll {} steps).finish = .ok p) :
    ∃ xs, p.MadeOf xs := by
  have hlaid := laidOut_afterAll steps
  obtain ⟨hshaped, -, hbytes⟩ := Emission.operations_spec (whole_of_noReference hraw) hlaid.shaped
    (afterAll {} steps).addressOf
  have hstrings := strings_finish hp
  refine ⟨_, hshaped, ?_, ?_, fun e he => genuine_of_mem_strings (hstrings ▸ he)⟩
  · rw [hbytes, (hlaid.finish hp).2]
  · rw [textIndices_filterMap_operation?, textIndices_emittedAll, hstrings, List.range_eq_range']
    rfl

namespace Program.MadeOf

variable {p : Program} {xs : List (Opcode × Argument)}

/-- The code is read as the operations. -/
theorem instructions_eq (h : p.MadeOf xs) :
    instructions p.code = (placed 0 xs).map .ok :=
  instructionsFrom_of_toList [] h.shaped h.code

/-- A string operand names a place of the pool. -/
theorem exists_entry (h : p.MadeOf xs) {op : Opcode} {index : UInt32}
    (hx : (op, .string index) ∈ xs) : ∃ e, p.strings[index.toNat]? = some e := by
  have hmem : index.toNat ∈ textIndices xs := List.mem_filterMap.2 ⟨_, hx, rfl⟩
  rw [h.indices, List.mem_range] at hmem
  exact ⟨_, Array.getElem?_eq_getElem hmem⟩

/-- Every place of the pool is named by a string operand. -/
theorem exists_operand (h : p.MadeOf xs) {e : PoolEntry} (he : e ∈ p.strings) :
    ∃ op index, (op, .string index) ∈ xs ∧ p.strings[index.toNat]? = some e := by
  obtain ⟨i, hi, rfl⟩ := Array.mem_iff_getElem.1 he
  have hmem : i ∈ textIndices xs := by rwa [h.indices, List.mem_range]
  obtain ⟨⟨op, arg⟩, hx, hindex⟩ := List.mem_filterMap.1 hmem
  cases arg with
  | string index =>
    obtain rfl : index.toNat = i := Option.some.inj hindex
    exact ⟨op, index, hx, Array.getElem?_eq_getElem hi⟩
  | _ => contradiction

/-- A program is made of one sequence of operations. -/
theorem unique {ys : List (Opcode × Argument)} (h : p.MadeOf xs) (hys : p.MadeOf ys) :
    xs = ys := by
  have hinstructions := h.instructions_eq.symm.trans hys.instructions_eq
  have hplaced : placed 0 xs = placed 0 ys :=
    List.map_injective_iff.2 (fun _ _ => Except.ok.inj) hinstructions
  rw [← operations_placed 0 xs, hplaced, operations_placed]

end Program.MadeOf
end StackMachine
