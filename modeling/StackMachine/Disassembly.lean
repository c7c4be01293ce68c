import StackMachine.Json
import StackMachine.Program.Basic

/-!
# Disassembly

Instructions as text: the offset in hexadecimal, the mnemonic and the operand. A string operand
shows its index in the pool and, between quotes, the text there.
-/

namespace StackMachine

/-- The text of an operand in a program. -/
def Argument.text? (p : Program) : Argument → Option String
  | .none => Option.none
  | .f64 x => some x.text
  | .string index =>
    match p.strings[index.toNat]? with
    | some e => some ("#" ++ Text.decimal index.toNat ++ " " ++ Text.quoted e.text)
    | Option.none => some ("#" ++ Text.decimal index.toNat ++ " <missing>")
  | a => a.toNat?.map Text.decimal

/-- The text of an instruction in a program. -/
def Instruction.text (i : Instruction) (p : Program) : String :=
  Text.hex 4 i.offset ++ "  " ++ i.opcode.mnemonic ++
    match i.argument.text? p with
    | some operand => " " ++ operand
    | none => ""

/-- An operand as JSON. -/
def Argument.toJson? : Argument → Option Json
  | .none => Option.none
  | .f64 x => some (.number x)
  | a => a.toNat?.map .natural

/-- An instruction as JSON. -/
def Instruction.toJson (i : Instruction) (p : Program) : Json :=
  .object <|
    [("offset", .natural i.offset), ("opcode", .string i.opcode.title),
      ("mnemonic", .string i.opcode.mnemonic)] ++
    (match i.argument.toJson? with
      | some operand => [("operand", operand)]
      | none => []) ++
    [("text", .string (i.text p))]

/-- The instructions of a program, unless some byte begins none. -/
def Program.decodeAll (p : Program) : Except DecodeError (List Instruction) :=
  (instructions p.code).mapM id

section

variable {p : Program} {is : List Instruction}

/-- A stream with no error is decoded to its instructions. -/
theorem Program.decodeAll_of_instructions (h : instructions p.code = is.map .ok) :
    p.decodeAll = .ok is := by
  rw [decodeAll, h, List.mapM_map]
  exact List.mapM_pure.trans (congrArg _ (List.map_id _))

/-- A stream that stops at an error is refused with that error. -/
theorem Program.decodeAll_of_instructions_error {e : DecodeError}
    (h : instructions p.code = is.map .ok ++ [.error e]) : p.decodeAll = .error e := by
  rw [decodeAll, h]
  clear h
  induction is with
  | nil => rfl
  | cons i is ih =>
    rw [List.map_cons, List.cons_append, List.mapM_cons, ih]
    rfl

end

/-- A program as text, one line per instruction. -/
def Program.disassemble (p : Program) : Except DecodeError String :=
  p.decodeAll.map fun is => String.join (is.map fun i => i.text p ++ "\n")

/-- A program as JSON, one object per instruction. -/
def Program.disassembleJson (p : Program) : Except DecodeError Json :=
  p.decodeAll.map fun is => .array (is.map fun i => i.toJson p)

end StackMachine
