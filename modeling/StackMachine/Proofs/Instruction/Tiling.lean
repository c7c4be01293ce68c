import StackMachine.Proofs.Instruction.Layout

/-!
# Code as a tiling

Decoding from the start cuts the code into the bytes of instructions, as far as instructions go
(`exists_tiling`). What is left is nothing, or it begins with a byte of no opcode or with an opcode
whose operand is cut off. A reader that is asked again and again gives the items of the stream and
comes to its end after at most as many as there are bytes.
-/

namespace StackMachine

variable {code : Array UInt8} {offset : Nat} {i : Instruction}

/-! ## Reading the next instruction -/

/-- The bytes of an operand are spelled again by what was read from them. -/
theorem Argument.bytes_ofBytes {s : Shape} {bs : List UInt8} (h : bs.length = s.width) :
    (ofBytes s bs).bytes = bs := by
  have hlt := Bytes.ofLittleEndian_lt bs
  have hback := Bytes.littleEndian_ofLittleEndian bs
  rw [h] at hlt hback
  cases s with
  | none => exact (List.eq_nil_of_length_eq_zero h).symm
  | u8 =>
    obtain ⟨b, rfl⟩ := List.length_eq_one_iff.1 h
    simp [ofBytes, bytes, Bytes.ofLittleEndian]
  | u16 =>
    rw [ofBytes, bytes, UInt16.toNat_ofNat_of_lt' hlt]
    exact hback
  | u32 | string =>
    rw [ofBytes, bytes, UInt32.toNat_ofNat_of_lt' hlt]
    exact hback
  | u64 | f64 =>
    rw [ofBytes, bytes, UInt64.toNat_ofNat_of_lt' hlt]
    exact hback

/-- What is decoded depends only on the bytes from the offset on. -/
theorem decode_of_drop {byte : UInt8} {tail : List UInt8}
    (h : code.toList.drop offset = byte :: tail) :
    decode code offset =
      match Opcode.ofByte? byte with
      | none => .error (.unknownOpcode offset byte)
      | some op =>
        if tail.length < op.shape.width then
          .error (.truncated offset op op.shape.width tail.length)
        else .ok ⟨offset, op, .ofBytes op.shape (tail.take op.shape.width)⟩ := by
  have hbyte : code[offset]? = some byte := by
    rw [← Array.getElem?_toList, ← List.head?_drop, h, List.head?_cons]
  have htail : code.toList.drop (offset + 1) = tail := by
    rw [← List.tail_drop, h, List.tail_cons]
  have hlength : code.size - (offset + 1) = tail.length := by
    rw [← htail, List.length_drop, Array.length_toList]
  cases hop : Opcode.ofByte? byte with
  | none => simp [decode, hbyte, hop]
  | some op => simp [decode, hbyte, hop, hlength, htail]

/-- Why no instruction begins with some bytes, the first of which stands at an offset. -/
inductive Undecodable (offset : Nat) : List UInt8 → DecodeError → Prop
  /-- The first byte is that of no opcode. -/
  | unknown {byte : UInt8} {tail : List UInt8} (hbyte : ∀ op : Opcode, op.code ≠ byte) :
      Undecodable offset (byte :: tail) (.unknownOpcode offset byte)
  /-- The operand is longer than what follows the opcode. -/
  | truncated {op : Opcode} {tail : List UInt8} (hshort : tail.length < op.shape.width) :
      Undecodable offset (op.code :: tail) (.truncated offset op op.shape.width tail.length)

theorem Undecodable.ne_outOfBounds {bytes : List UInt8} {e : DecodeError}
    (h : Undecodable offset bytes e) (x : Nat) : e ≠ .outOfBounds x := by
  rintro rfl
  cases h

/-- **Decoding inside the code**: the bytes from there on begin with those of the instruction that
is decoded, or no instruction begins with them. -/
theorem decode_cases (hinside : offset < code.size) :
    (∃ i rest, decode code offset = .ok i ∧ i.offset = offset ∧ i.WellShaped ∧
      code.toList.drop offset = i.bytes ++ rest) ∨
    ∃ e, decode code offset = .error e ∧ Undecodable offset (code.toList.drop offset) e := by
  obtain ⟨byte, tail, hdrop⟩ : ∃ byte tail, code.toList.drop offset = byte :: tail :=
    ⟨_, _, List.drop_eq_getElem_cons (by rwa [Array.length_toList])⟩
  rw [decode_of_drop hdrop, hdrop]
  cases hop : Opcode.ofByte? byte with
  | none =>
    refine .inr ⟨_, rfl, .unknown fun op hcode => ?_⟩
    rw [← hcode, Opcode.ofByte?_code] at hop
    contradiction
  | some op =>
    obtain rfl := Opcode.ofByte?_eq_some_iff.1 hop
    dsimp only
    by_cases hshort : tail.length < op.shape.width
    · rw [if_pos hshort]
      exact .inr ⟨_, rfl, .truncated hshort⟩
    · have hwidth : (tail.take op.shape.width).length = op.shape.width := by
        rw [List.length_take, Nat.min_eq_left (Nat.not_lt.1 hshort)]
      rw [if_neg hshort]
      refine .inl ⟨_, tail.drop op.shape.width, rfl, rfl, Argument.shape_ofBytes _ _, ?_⟩
      rw [Instruction.bytes, Argument.bytes_ofBytes hwidth, List.cons_append,
        List.take_append_drop]

/-! ## Tilings -/

/-- Instructions one after another, the first at an offset. -/
def Contiguous : Nat → List Instruction → Prop
  | _, [] => True
  | offset, i :: is => i.offset = offset ∧ i.WellShaped ∧ Contiguous i.next is

/-- Bytes that begin at an offset are those of instructions one after another, as far as
instructions go. Either nothing is left, or no instruction begins where the last one ends. -/
structure Tiling (offset : Nat) (bytes : List UInt8) (is : List Instruction)
    (stop : Option DecodeError) : Prop where
  contiguous : Contiguous offset is
  tiled : ∃ rest, bytes = is.flatMap Instruction.bytes ++ rest ∧
    match stop with
    | none => rest = []
    | some e => Undecodable (offset + (is.flatMap Instruction.bytes).length) rest e

theorem Tiling.cons {bytes : List UInt8} {is : List Instruction} {stop : Option DecodeError}
    (hshaped : i.WellShaped) (h : Tiling i.next bytes is stop) :
    Tiling i.offset (i.bytes ++ bytes) (i :: is) stop := by
  obtain ⟨rest, rfl, hrest⟩ := h.tiled
  refine ⟨⟨rfl, hshaped, h.contiguous⟩, rest, by simp, ?_⟩
  have hend : i.offset + ((i :: is).flatMap Instruction.bytes).length =
      i.next + (is.flatMap Instruction.bytes).length := by
    rw [List.flatMap_cons, List.length_append, Instruction.length_bytes hshaped, Instruction.next,
      Nat.add_assoc]
  rwa [hend]

/-- **Decoding tiles the code** from any offset on, and the stream has an item for each tile, and
one more for the error if there is one. -/
theorem exists_tiling (code : Array UInt8) (offset : Nat) :
    ∃ is stop, Tiling offset (code.toList.drop offset) is stop ∧
      instructionsFrom code offset = is.map .ok ++ (stop.map .error).toList := by
  -- Every instruction has a byte, so less is left after it.
  induction hsize : code.size - offset using Nat.strong_induction_on generalizing offset with
  | _ n ih =>
    by_cases hinside : offset < code.size
    · rcases decode_cases hinside with ⟨i, rest, hdecode, rfl, hshaped, hdrop⟩ | ⟨e, hdecode, he⟩
      · have hrest : code.toList.drop i.next = rest := by
          rw [Instruction.next, ← Instruction.length_bytes hshaped, ← List.drop_drop, hdrop,
            List.drop_left]
        have hlt := i.lt_next
        obtain ⟨is, stop, htiling, hstream⟩ := ih _ (by omega) i.next rfl
        rw [hrest] at htiling
        refine ⟨i :: is, stop, hdrop ▸ htiling.cons hshaped, ?_⟩
        rw [instructionsFrom_of_decode_ok hinside hdecode, hstream]
        rfl
      · exact ⟨[], some e, ⟨trivial, _, rfl, he⟩, instructionsFrom_of_decode_error hinside hdecode⟩
    · have hend := Nat.not_lt.1 hinside
      refine ⟨[], none, ⟨trivial, [], ?_, rfl⟩, instructionsFrom_of_size_le hend⟩
      exact List.drop_eq_nil_iff.2 (by rwa [Array.length_toList])

/-! ## Asking a reader -/

/-- Every item of the stream takes a byte of the code. -/
theorem length_instructionsFrom_le (code : Array UInt8) (offset : Nat) :
    (instructionsFrom code offset).length ≤ code.size - offset := by
  induction offset using instructionsFrom.induct code with
  | case1 offset hlt e he =>
    rw [instructionsFrom_of_decode_error hlt he, List.length_singleton]
    omega
  | case2 i _ hlt hi ih =>
    have hnext := i.lt_next
    rw [instructionsFrom_of_decode_ok hlt hi, List.length_cons]
    omega
  | case3 offset hge =>
    rw [instructionsFrom_of_size_le (Nat.not_lt.1 hge)]
    exact Nat.zero_le _

namespace InstructionReader

theorem ask_of_failed {r : InstructionReader} (h : r.failed) (n : Nat) : r.ask n = [] := by
  cases n with
  | zero => rfl
  | succ n => rw [ask, next?, if_pos (.inl h)]

/-- **A reader gives the stream**, item by item, and then nothing. -/
theorem ask_eq (code : Array UInt8) (offset n : Nat) :
    ask { code, offset } n = (instructionsFrom code offset).take n := by
  induction n generalizing offset with
  | zero => rfl
  | succ n ih =>
    rw [ask, next?]
    by_cases hinside : offset < code.size
    · have hgoes : ¬(false = true ∨ code.size ≤ offset) := by simpa using hinside
      rw [if_neg hgoes]
      cases hdecode : decode code offset with
      | ok i => rw [instructionsFrom_of_decode_ok hinside hdecode, List.take_succ_cons, ← ih]
      | error e =>
        rw [instructionsFrom_of_decode_error hinside hdecode, List.take_succ_cons, List.take_nil]
        exact congrArg _ (ask_of_failed rfl n)
    · have hend := Nat.not_lt.1 hinside
      rw [if_pos (.inr hend), instructionsFrom_of_size_le hend, List.take_nil]

end InstructionReader
end StackMachine
