import StackMachine.Assembly.Basic
import StackMachine.Listing.Lexer
import StackMachine.Number.Text

/-!
# Statements

What stands on a line of a listing after its labels: nothing, or a mnemonic with the operand that
its shape asks for.
-/

namespace StackMachine.Listing

/-! ## What can go wrong -/

/-- Why a line is not well formed. -/
inductive Malformed where
  | expectedMnemonic
  | unknownMnemonic (name : String)
  | expectedOperand (op : Opcode)
  | extraOperand (op : Opcode)
  | invalidInteger (text : String) (shape : Shape)
  | expectedNumberAfterMinus
  | expectedNumber (word : String)
deriving DecidableEq, Repr

/-- The message for a line that is not well formed. -/
def Malformed.message : Malformed → String
  | expectedMnemonic => "expected a mnemonic"
  | unknownMnemonic name => "unknown mnemonic '" ++ name ++ "'"
  | expectedOperand op => op.mnemonic ++ " expects a " ++ op.shape.name ++ " operand"
  | extraOperand op => "unexpected operand after " ++ op.mnemonic
  | invalidInteger text shape => "'" ++ text ++ "' is not a valid " ++ shape.name
  | expectedNumberAfterMinus => "expected a number after '-'"
  | expectedNumber word => "expected a number, got '" ++ word ++ "'"

/-! ## Operands -/

/-- The operand of a statement. -/
inductive Operand where
  | none
  | immediate (imm : Immediate)
  /-- The address of the label of a name, which is used at a span. -/
  | target (name : String) (span : Span)
deriving DecidableEq

/-- The natural number of a numeral that has only digits, if it is below a bound. -/
def natural? (text : String) (bound : Nat) : Option Nat :=
  let digits := text.toList
  if digits.all Char.isDigit then
    let n := Number.digitsValue digits
    if n < bound then some n else .none
  else .none

/-- The immediate of an integer shape that a numeral spells. -/
def integer? (shape : Shape) (text : String) : Option Immediate :=
  match shape with
  | .u8 => (natural? text UInt8.size).map fun n => .u8 (UInt8.ofNat n)
  | .u16 => (natural? text UInt16.size).map fun n => .u16 (UInt16.ofNat n)
  | .u32 => (natural? text UInt32.size).map fun n => .u32 (UInt32.ofNat n)
  | .u64 => (natural? text UInt64.size).map fun n => .u64 (UInt64.ofNat n)
  | _ => .none

/-- The number that a word stands for. -/
def numberWord? (word : String) : Option Number :=
  if word = "inf" then some Number.infinity
  else if word = "nan" ∨ word = "NaN" then some Number.nan
  else .none

/-- A line that is not well formed, with the place of the fault. -/
structure MalformedAt where
  span : Span
  fault : Malformed
deriving DecidableEq

/-- The number that a word stands for, or the fault that it stands for none. -/
def numberWord (word : String) (span : Span) : Except MalformedAt Number :=
  match numberWord? word with
  | some x => .ok x
  | .none => .error ⟨span, .expectedNumber word⟩

/-- The operand of an opcode, whose mnemonic stands at a span, and the lexemes after it. -/
def readOperand (op : Opcode) (mnemonic : Span) (rest : List Lexeme) :
    Except MalformedAt (Operand × List Lexeme) :=
  if op.shape = .none then .ok (.none, rest)
  else
    match rest with
    | [] => .error ⟨mnemonic, .expectedOperand op⟩
    | ⟨token, span⟩ :: rest =>
      match op.shape, token with
      | .f64, .number text => .ok (.immediate (.f64 (Number.ofNumeral text.toList)), rest)
      | .f64, .word word => do
        let x ← numberWord word span
        pure (.immediate (.f64 x), rest)
      | .f64, .minus =>
        match rest with
        | ⟨.word word, wordSpan⟩ :: rest => do
          let x ← numberWord word wordSpan
          pure (.immediate (.f64 x.neg), rest)
        | _ => .error ⟨span, .expectedNumberAfterMinus⟩
      | .string, .text s => .ok (.immediate (.text s), rest)
      | .u64, .word name => .ok (.target name span, rest)
      | .u8, .number text | .u16, .number text | .u32, .number text | .u64, .number text =>
        match integer? op.shape text with
        | some imm => .ok (.immediate imm, rest)
        | .none => .error ⟨span, .invalidInteger text op.shape⟩
      | _, _ => .error ⟨span, .expectedOperand op⟩

/-! ## Statements -/

/-- An instruction as a listing has it. -/
structure Statement where
  opcode : Opcode
  operand : Operand
deriving DecidableEq

/-- The statement that the lexemes of a line after its labels make, if there are any. -/
def readStatement? (lexemes : List Lexeme) : Except MalformedAt (Option Statement) :=
  match lexemes with
  | [] => .ok .none
  | ⟨.word name, span⟩ :: rest =>
    match Opcode.ofMnemonic? name with
    | .none => .error ⟨span, .unknownMnemonic name⟩
    | some op => do
      let (operand, rest) ← readOperand op span rest
      match rest with
      | [] => pure (some ⟨op, operand⟩)
      | extra :: _ => .error ⟨extra.span, .extraOperand op⟩
  | ⟨_, span⟩ :: _ => .error ⟨span, .expectedMnemonic⟩

end StackMachine.Listing
