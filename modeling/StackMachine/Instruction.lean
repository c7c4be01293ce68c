import StackMachine.Bytes
import StackMachine.Number.Basic
import StackMachine.Opcode
import StackMachine.Text.Numeral

/-!
# Instructions

Code is a sequence of instructions, each an opcode byte with a little-endian operand. An instruction
can be read at any offset; read from the start one after another, the instructions tile the code up
to the first byte that none begins at.
-/

namespace StackMachine

/-! ## Operands -/

/-- An operand as it stands in the code. -/
inductive Argument where
  | none
  | u8 (n : UInt8)
  | u16 (n : UInt16)
  | u32 (n : UInt32)
  | u64 (n : UInt64)
  | f64 (x : Number)
  /-- An index into the string pool. -/
  | string (index : UInt32)
deriving DecidableEq

namespace Argument

/-- The shape of an operand. -/
def shape : Argument → Shape
  | none => .none
  | u8 _ => .u8
  | u16 _ => .u16
  | u32 _ => .u32
  | u64 _ => .u64
  | f64 _ => .f64
  | string _ => .string

/-- The integer that an operand is; numbers and missing operands are none. -/
def toNat? : Argument → Option Nat
  | u8 n => some n.toNat
  | u16 n => some n.toNat
  | u32 n | string n => some n.toNat
  | u64 n => some n.toNat
  | none | f64 _ => Option.none

/-- The bytes of an operand. -/
def bytes : Argument → List UInt8
  | none => []
  | u8 n => [n]
  | u16 n => Bytes.littleEndian 2 n.toNat
  | u32 n | string n => Bytes.littleEndian 4 n.toNat
  | u64 n => Bytes.littleEndian 8 n.toNat
  | f64 x => Bytes.littleEndian 8 x.bits.toNat

/-- The operand of a shape that some bytes spell. -/
def ofBytes (shape : Shape) (bytes : List UInt8) : Argument :=
  let n := Bytes.ofLittleEndian bytes
  match shape with
  | .none => none
  | .u8 => u8 (UInt8.ofNat n)
  | .u16 => u16 (UInt16.ofNat n)
  | .u32 => u32 (UInt32.ofNat n)
  | .u64 => u64 (UInt64.ofNat n)
  | .f64 => f64 ⟨UInt64.ofNat n⟩
  | .string => string (UInt32.ofNat n)

@[simp] theorem length_bytes (a : Argument) : a.bytes.length = a.shape.width := by
  cases a <;> simp [bytes, shape, Shape.width]

@[simp] theorem shape_ofBytes (s : Shape) (bytes : List UInt8) : (ofBytes s bytes).shape = s := by
  cases s <;> rfl

end Argument

/-! ## Decoding -/

/-- An instruction at its place in the code. -/
structure Instruction where
  offset : Nat
  opcode : Opcode
  argument : Argument
deriving DecidableEq

/-- The offset of the instruction that follows. -/
def Instruction.next (i : Instruction) : Nat := i.offset + i.opcode.size

/-- The bytes of an instruction. -/
def Instruction.bytes (i : Instruction) : List UInt8 := i.opcode.code :: i.argument.bytes

/-- Why no instruction begins at an offset. -/
inductive DecodeError where
  | unknownOpcode (offset : Nat) (byte : UInt8)
  | truncated (offset : Nat) (opcode : Opcode) (needed available : Nat)
  | outOfBounds (offset : Nat)
deriving DecidableEq, Repr

/-- The message of a decoding error. -/
def DecodeError.message : DecodeError → String
  | .unknownOpcode offset byte =>
    "unknown opcode 0x" ++ Text.hex 2 byte.toNat ++ " at offset " ++ Text.decimal offset
  | .truncated offset opcode needed available =>
    opcode.mnemonic ++ " at offset " ++ Text.decimal offset ++ " needs " ++ Text.decimal needed ++
      " operand bytes, " ++ Text.decimal available ++ " available"
  | .outOfBounds offset => "offset " ++ Text.decimal offset ++ " is past the end of the code"

/-- The instruction at an offset. -/
def decode (code : Array UInt8) (offset : Nat) : Except DecodeError Instruction :=
  match code[offset]? with
  | none => .error (.outOfBounds offset)
  | some byte =>
    match Opcode.ofByte? byte with
    | none => .error (.unknownOpcode offset byte)
    | some opcode =>
      let start := offset + 1
      let needed := opcode.shape.width
      let available := code.size - start
      if available < needed then
        .error (.truncated offset opcode needed available)
      else
        let operand := (code.extract start (start + needed)).toList
        .ok ⟨offset, opcode, .ofBytes opcode.shape operand⟩

theorem Instruction.lt_next (i : Instruction) : i.offset < i.next := by
  simp only [Instruction.next, Opcode.size]
  omega

theorem offset_of_decode {code : Array UInt8} {offset : Nat} {i : Instruction}
    (h : decode code offset = .ok i) : i.offset = offset := by
  unfold decode at h
  split at h
  · contradiction
  · split at h
    · contradiction
    · dsimp only at h
      split at h
      · contradiction
      · obtain rfl := Except.ok.inj h
        rfl

/-! ## The instruction stream -/

/-- The instructions from an offset on. The first error is the last item. -/
def instructionsFrom (code : Array UInt8) (offset : Nat) :
    List (Except DecodeError Instruction) :=
  if offset < code.size then
    match h : decode code offset with
    | .error e => [.error e]
    | .ok i =>
      have := i.lt_next
      have := offset_of_decode h
      .ok i :: instructionsFrom code i.next
  else
    []
termination_by code.size - offset

/-- The instructions of the code in order. The first error is the last item. -/
def instructions (code : Array UInt8) : List (Except DecodeError Instruction) :=
  instructionsFrom code 0

section

variable {code : Array UInt8} {offset : Nat}

theorem instructionsFrom_of_decode_ok {i : Instruction} (hinside : offset < code.size)
    (h : decode code offset = .ok i) :
    instructionsFrom code offset = .ok i :: instructionsFrom code i.next := by
  -- The function carries its equation for `decode`, so it has to be opened by cases on that.
  rw [instructionsFrom, if_pos hinside]
  split
  · next e he => rw [h] at he; contradiction
  · next j hj =>
    rw [h] at hj
    obtain rfl := Except.ok.inj hj
    rfl

theorem instructionsFrom_of_decode_error {e : DecodeError} (hinside : offset < code.size)
    (h : decode code offset = .error e) : instructionsFrom code offset = [.error e] := by
  rw [instructionsFrom, if_pos hinside]
  split
  · next d hd =>
    rw [h] at hd
    obtain rfl := Except.error.inj hd
    rfl
  · next i hi => rw [h] at hi; contradiction

theorem instructionsFrom_of_size_le (h : code.size ≤ offset) :
    instructionsFrom code offset = [] := by
  rw [instructionsFrom, if_neg (Nat.not_lt.2 h)]

end

/-! ## Asking for instructions -/

/-- A reader of code, which is asked for one instruction after another. -/
structure InstructionReader where
  code : Array UInt8
  offset : Nat := 0
  /-- Whether an error was given; nothing comes after it. -/
  failed : Bool := false

namespace InstructionReader

/-- The next item, and the reader after it, unless the reader is at its end. -/
def next? (r : InstructionReader) :
    Option (Except DecodeError Instruction × InstructionReader) :=
  if r.failed ∨ r.code.size ≤ r.offset then none
  else
    match decode r.code r.offset with
    | .ok i => some (.ok i, { r with offset := i.next })
    | .error e => some (.error e, { r with failed := true })

/-- What a reader gives when it is asked up to so many times. -/
def ask (r : InstructionReader) : Nat → List (Except DecodeError Instruction)
  | 0 => []
  | n + 1 =>
    match r.next? with
    | some (item, r) => item :: r.ask n
    | none => []

end InstructionReader
end StackMachine
