import StackMachine.Instruction
import StackMachine.Proofs.Bytes

/-!
# Instructions laid out in code

Where the bytes of an instruction stand in the code, that instruction is decoded, and where the
bytes of a sequence of instructions fill the rest of the code, the stream from there is that
sequence. All arithmetic of byte offsets that decoding needs is in this module.
-/

namespace StackMachine

/-! ## One instruction -/

/-- An operand is read back from its bytes. -/
theorem Argument.ofBytes_bytes (a : Argument) : ofBytes a.shape a.bytes = a := by
  cases a with
  | none => rfl
  | u8 n => simp [ofBytes, bytes, shape, Bytes.ofLittleEndian]
  | u16 n =>
    have h : n.toNat < 256 ^ 2 := n.toNat_lt
    simp [ofBytes, bytes, shape, Bytes.ofLittleEndian_of_lt h]
  | u32 n | string n =>
    have h : n.toNat < 256 ^ 4 := n.toNat_lt
    simp [ofBytes, bytes, shape, Bytes.ofLittleEndian_of_lt h]
  | u64 n =>
    have h : n.toNat < 256 ^ 8 := n.toNat_lt
    simp [ofBytes, bytes, shape, Bytes.ofLittleEndian_of_lt h]
  | f64 x =>
    have h : x.bits.toNat < 256 ^ 8 := x.bits.toNat_lt
    simp [ofBytes, bytes, shape, Bytes.ofLittleEndian_of_lt h]

/-- An instruction whose operand has the shape that its opcode asks for. -/
def Instruction.WellShaped (i : Instruction) : Prop := i.argument.shape = i.opcode.shape

theorem Instruction.length_bytes {i : Instruction} (h : i.WellShaped) :
    i.bytes.length = i.opcode.size := by
  rw [bytes, List.length_cons, Argument.length_bytes, h, Opcode.size, Nat.add_comm]

/-- **An instruction is decoded where its bytes stand.** -/
theorem decode_of_toList {code : Array UInt8} {i : Instruction} {pre post : List UInt8}
    (hshape : i.WellShaped) (hoffset : i.offset = pre.length)
    (hcode : code.toList = pre ++ (i.bytes ++ post)) : decode code i.offset = .ok i := by
  obtain ⟨offset, op, arg⟩ := i
  obtain rfl : offset = pre.length := hoffset
  have hwidth : arg.bytes.length = op.shape.width := by
    rw [Argument.length_bytes, hshape]
  have hbyte : code[pre.length]? = some op.code := by
    rw [← Array.getElem?_toList, hcode, List.getElem?_append_right (Nat.le_refl _)]
    simp [Instruction.bytes]
  have hsize : code.size = pre.length + (1 + op.shape.width + post.length) := by
    rw [← Array.length_toList, hcode, List.length_append, List.length_append,
      Instruction.bytes, List.length_cons, hwidth, Nat.add_comm op.shape.width]
  have hoperand : (code.extract (pre.length + 1) (pre.length + 1 + op.shape.width)).toList =
      arg.bytes := by
    rw [Array.toList_extract, hcode, List.extract_eq_take_drop, Nat.add_sub_cancel_left,
      ← List.drop_drop, List.drop_left, Instruction.bytes, List.cons_append, List.drop_one,
      List.tail_cons, ← hwidth, List.take_left]
  have hroom : ¬code.size - (pre.length + 1) < op.shape.width := by omega
  simp only [decode, hbyte, Opcode.ofByte?_code, if_neg hroom, hoperand]
  rw [← show arg.shape = op.shape from hshape, Argument.ofBytes_bytes]

/-! ## Sequences of instructions -/

/-- Operations one after another, the first at an offset. -/
def placed (offset : Nat) : List (Opcode × Argument) → List Instruction
  | [] => []
  | (op, arg) :: rest => ⟨offset, op, arg⟩ :: placed (offset + op.size) rest

/-- Where operations are placed says nothing about them. -/
theorem operations_placed (offset : Nat) (xs : List (Opcode × Argument)) :
    (placed offset xs).map (fun i => (i.opcode, i.argument)) = xs := by
  induction xs generalizing offset with
  | nil => rfl
  | cons x xs ih => rw [placed, List.map_cons, ih]

theorem mem_of_mem_placed {offset : Nat} {xs : List (Opcode × Argument)} {i : Instruction}
    (h : i ∈ placed offset xs) : (i.opcode, i.argument) ∈ xs := by
  rw [← operations_placed offset xs]
  exact List.mem_map_of_mem h

/-- The bytes of an operation, wherever it stands. -/
def operationBytes (x : Opcode × Argument) : List UInt8 := x.1.code :: x.2.bytes

theorem length_operationBytes {x : Opcode × Argument} (h : x.2.shape = x.1.shape) :
    (operationBytes x).length = x.1.size :=
  Instruction.length_bytes (i := ⟨0, x.1, x.2⟩) h

/-- **The stream of code that is laid out.** Where the bytes of well-shaped operations fill the code
from an offset on, the instructions from there are these operations, without an error. -/
theorem instructionsFrom_of_toList {code : Array UInt8} {xs : List (Opcode × Argument)}
    (pre : List UInt8) (hshape : ∀ x ∈ xs, x.2.shape = x.1.shape)
    (hcode : code.toList = pre ++ xs.flatMap operationBytes) :
    instructionsFrom code pre.length = (placed pre.length xs).map .ok := by
  induction xs generalizing pre with
  | nil =>
    have hsize : code.size = pre.length := by simpa using congrArg List.length hcode
    rw [instructionsFrom_of_size_le (Nat.le_of_eq hsize)]
    rfl
  | cons x xs ih =>
    obtain ⟨op, arg⟩ := x
    have hx : arg.shape = op.shape := hshape (op, arg) (by simp)
    have hlen : (operationBytes (op, arg)).length = op.size := length_operationBytes hx
    have hdecode : decode code pre.length = .ok ⟨pre.length, op, arg⟩ := by
      rw [List.flatMap_cons] at hcode
      exact decode_of_toList (i := ⟨pre.length, op, arg⟩) hx rfl hcode
    have hlt : pre.length < code.size := by
      rw [← Array.length_toList, hcode, List.flatMap_cons, List.length_append,
        List.length_append, hlen, Opcode.size]
      omega
    -- What comes before the rest is `pre` and the first operation.
    have hrest : instructionsFrom code (pre ++ operationBytes (op, arg)).length =
        (placed (pre ++ operationBytes (op, arg)).length xs).map .ok :=
      ih _ (fun y hy => hshape y (by simp [hy])) (by simpa using hcode)
    rw [List.length_append, hlen] at hrest
    rw [instructionsFrom_of_decode_ok hlt hdecode]
    exact congrArg _ hrest

/-- The operations of a sequence are in order and each is where the ones before it end. -/
theorem mem_placed_iff {offset : Nat} {xs : List (Opcode × Argument)} {i : Instruction} :
    i ∈ placed offset xs ↔ ∃ before after, xs = before ++ (i.opcode, i.argument) :: after ∧
      i.offset = offset + (before.map fun x => x.1.size).sum := by
  induction xs generalizing offset with
  | nil => simp [placed]
  | cons x xs ih =>
    obtain ⟨op, arg⟩ := x
    rw [placed, List.mem_cons, ih]
    constructor
    · rintro (rfl | ⟨before, after, rfl, hoffset⟩)
      · exact ⟨[], xs, rfl, rfl⟩
      · refine ⟨(op, arg) :: before, after, rfl, ?_⟩
        rw [hoffset, List.map_cons, List.sum_cons, Nat.add_assoc]
    · rintro ⟨before, after, heq, hoffset⟩
      cases before with
      | nil =>
        obtain ⟨hhead, -⟩ := List.cons.inj heq
        left
        obtain ⟨o, p, a⟩ := i
        simp_all
      | cons y before =>
        obtain ⟨rfl, rfl⟩ := List.cons.inj heq
        refine Or.inr ⟨before, after, rfl, ?_⟩
        rw [hoffset, List.map_cons, List.sum_cons, Nat.add_assoc]

end StackMachine
