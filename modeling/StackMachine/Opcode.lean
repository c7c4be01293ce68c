/-!
# Opcodes

The instruction set: every opcode has a byte, a mnemonic and the shape of its operand. The shape
depends on the opcode alone, so the length of an instruction is known from its first byte.
-/

namespace StackMachine

/-! ## Operand shapes -/

/-- What follows an opcode. -/
inductive Shape where
  | none
  | u8
  | u16
  | u32
  | u64
  | f64
  /-- An index into the string pool. -/
  | string
deriving DecidableEq, Repr

/-- The number of bytes of an operand. -/
def Shape.width : Shape → Nat
  | .none => 0
  | .u8 => 1
  | .u16 => 2
  | .u32 | .string => 4
  | .u64 | .f64 => 8

/-- The name of a shape in messages. -/
def Shape.name : Shape → String
  | .none => "none"
  | .u8 => "u8"
  | .u16 => "u16"
  | .u32 => "u32"
  | .u64 => "u64"
  | .f64 => "f64"
  | .string => "string"

/-- Every shape. -/
def Shape.all : List Shape := [.none, .u8, .u16, .u32, .u64, .f64, .string]

/-! ## The instruction set -/

/-- An operation of the machine. -/
inductive Opcode where
  /-- `PNIL`: push nil. -/
  | pushNil
  /-- `PTRUE`: push true. -/
  | pushTrue
  /-- `PFALSE`: push false. -/
  | pushFalse
  /-- `PINT`: push a small whole number. -/
  | pushInt
  /-- `PNUM`: push a number. -/
  | pushNumber
  /-- `PSTR`: push a string of the pool. -/
  | pushString
  /-- `PARR`: collect the top values into an array. -/
  | makeArray
  /-- `PTAB`: collect key and value pairs into a table. -/
  | makeTable
  /-- `PTABF`: collect triples of key, flags and value into a table. -/
  | makeFlaggedTable
  /-- `PTABP`: like `makeTable`, with a prototype below the pairs. -/
  | makeDerivedTable
  /-- `PTABPF`: like `makeFlaggedTable`, with a prototype below the triples. -/
  | makeDerivedFlaggedTable
  /-- `PFUN`: replace an arity by the function of that arity at an address. -/
  | pushFunction
  /-- `POP`: drop the top value. -/
  | pop
  /-- `DUP`: push the top value again. -/
  | dup
  /-- `CVAR`: move the top value into a new variable. -/
  | define
  /-- `CMVAR`: move the items of an array of the given length into new variables. -/
  | destructure
  /-- `GVAR`: push a variable. -/
  | load
  /-- `SVAR`: move the top value into a variable. -/
  | store
  /-- `PSHS`: open a scope. -/
  | enterScope
  /-- `POPS`: close a scope and drop its variables. -/
  | leaveScope
  /-- `JMP`: go to an address. -/
  | jump
  /-- `JMPT`: drop a condition and go to an address if it is true. -/
  | jumpIf
  /-- `JMPF`: drop a condition and go to an address if it is false. -/
  | jumpUnless
  /-- `CALL`: call the function below so many arguments. -/
  | call
  /-- `RET`: return to the caller, or halt when there is none. -/
  | ret
  /-- `NEG`: negate a number. -/
  | neg
  /-- `NOT`: negate a condition. -/
  | not
  /-- `ADD`: add numbers or join strings. -/
  | add
  /-- `SUB`: subtract. -/
  | sub
  /-- `MUL`: multiply. -/
  | mul
  /-- `DIV`: divide. -/
  | div
  /-- `MOD`: the remainder of a division. -/
  | mod
  /-- `EQ`: whether two values are equal. -/
  | eq
  /-- `NEQ`: whether two values are not equal. -/
  | ne
  /-- `LT`: less than. -/
  | lt
  /-- `LTE`: at most. -/
  | le
  /-- `GT`: greater than. -/
  | gt
  /-- `GTE`: at least. -/
  | ge
  /-- `GET`: read by key. -/
  | get
  /-- `SET`: write by key. -/
  | set
  /-- `DEL`: delete by key. -/
  | delete
  /-- `INSPECT`: replace the top value by its text. -/
  | inspect
  /-- `ISNIL`: replace the top value by whether it is nil. -/
  | isNil
  /-- `PTR`: replace the top value by the address of its payload as a number. -/
  | identity
deriving DecidableEq, Repr

namespace Opcode

/-- Every opcode, in the order of their bytes. -/
def all : List Opcode := [
  .pushNil, .pushTrue, .pushFalse, .pushInt, .pushNumber, .pushString, .makeArray, .makeTable,
  .makeFlaggedTable, .makeDerivedTable, .makeDerivedFlaggedTable, .pushFunction, .pop, .dup,
  .define, .destructure, .load, .store, .enterScope, .leaveScope, .jump, .jumpIf, .jumpUnless,
  .call, .ret, .neg, .not, .add, .sub, .mul, .div, .mod, .eq, .ne, .lt, .le, .gt, .ge, .get, .set,
  .delete, .inspect, .isNil, .identity]

/-- The byte of an opcode. -/
def code : Opcode → UInt8
  | .pushNil => 0x00
  | .pushTrue => 0x01
  | .pushFalse => 0x02
  | .pushInt => 0x03
  | .pushNumber => 0x04
  | .pushString => 0x05
  | .makeArray => 0x06
  | .makeTable => 0x07
  | .makeFlaggedTable => 0x08
  | .makeDerivedTable => 0x09
  | .makeDerivedFlaggedTable => 0x0a
  | .pushFunction => 0x0b
  | .pop => 0x10
  | .dup => 0x11
  | .define => 0x18
  | .destructure => 0x19
  | .load => 0x1a
  | .store => 0x1b
  | .enterScope => 0x1c
  | .leaveScope => 0x1d
  | .jump => 0x20
  | .jumpIf => 0x21
  | .jumpUnless => 0x22
  | .call => 0x23
  | .ret => 0x24
  | .neg => 0x30
  | .not => 0x31
  | .add => 0x38
  | .sub => 0x39
  | .mul => 0x3a
  | .div => 0x3b
  | .mod => 0x3c
  | .eq => 0x3d
  | .ne => 0x3e
  | .lt => 0x3f
  | .le => 0x40
  | .gt => 0x41
  | .ge => 0x42
  | .get => 0x48
  | .set => 0x49
  | .delete => 0x4a
  | .inspect => 0x50
  | .isNil => 0x51
  | .identity => 0x52

/-- The mnemonic of an opcode. -/
def mnemonic : Opcode → String
  | .pushNil => "PNIL"
  | .pushTrue => "PTRUE"
  | .pushFalse => "PFALSE"
  | .pushInt => "PINT"
  | .pushNumber => "PNUM"
  | .pushString => "PSTR"
  | .makeArray => "PARR"
  | .makeTable => "PTAB"
  | .makeFlaggedTable => "PTABF"
  | .makeDerivedTable => "PTABP"
  | .makeDerivedFlaggedTable => "PTABPF"
  | .pushFunction => "PFUN"
  | .pop => "POP"
  | .dup => "DUP"
  | .define => "CVAR"
  | .destructure => "CMVAR"
  | .load => "GVAR"
  | .store => "SVAR"
  | .enterScope => "PSHS"
  | .leaveScope => "POPS"
  | .jump => "JMP"
  | .jumpIf => "JMPT"
  | .jumpUnless => "JMPF"
  | .call => "CALL"
  | .ret => "RET"
  | .neg => "NEG"
  | .not => "NOT"
  | .add => "ADD"
  | .sub => "SUB"
  | .mul => "MUL"
  | .div => "DIV"
  | .mod => "MOD"
  | .eq => "EQ"
  | .ne => "NEQ"
  | .lt => "LT"
  | .le => "LTE"
  | .gt => "GT"
  | .ge => "GTE"
  | .get => "GET"
  | .set => "SET"
  | .delete => "DEL"
  | .inspect => "INSPECT"
  | .isNil => "ISNIL"
  | .identity => "PTR"

/-- The shape of the operand of an opcode. -/
def shape : Opcode → Shape
  | .pushNil => .none
  | .pushTrue => .none
  | .pushFalse => .none
  | .pushInt => .u8
  | .pushNumber => .f64
  | .pushString => .string
  | .makeArray => .u32
  | .makeTable => .u32
  | .makeFlaggedTable => .u32
  | .makeDerivedTable => .u32
  | .makeDerivedFlaggedTable => .u32
  | .pushFunction => .u64
  | .pop => .none
  | .dup => .none
  | .define => .none
  | .destructure => .u32
  | .load => .u64
  | .store => .u64
  | .enterScope => .none
  | .leaveScope => .none
  | .jump => .u64
  | .jumpIf => .u64
  | .jumpUnless => .u64
  | .call => .u16
  | .ret => .none
  | .neg => .none
  | .not => .none
  | .add => .none
  | .sub => .none
  | .mul => .none
  | .div => .none
  | .mod => .none
  | .eq => .none
  | .ne => .none
  | .lt => .none
  | .le => .none
  | .gt => .none
  | .ge => .none
  | .get => .none
  | .set => .none
  | .delete => .none
  | .inspect => .none
  | .isNil => .none
  | .identity => .none

/-- The name of an opcode in reports: its mnemonic with only the first letter large. -/
def title (op : Opcode) : String :=
  match op.mnemonic.toList with
  | [] => ""
  | c :: cs => String.ofList (c :: cs.map Char.toLower)

/-- The number of bytes of an instruction with this opcode. -/
def size (op : Opcode) : Nat := 1 + op.shape.width

/-- The opcode of a byte. -/
def ofByte? (byte : UInt8) : Option Opcode := all.find? fun op => op.code == byte

/-- The opcode of a mnemonic, in upper or lower case. -/
def ofMnemonic? (name : String) : Option Opcode :=
  let upper := String.ofList (name.toList.map Char.toUpper)
  all.find? fun op => op.mnemonic == upper

theorem ofByte?_code (op : Opcode) : ofByte? op.code = some op := by
  cases op <;> rfl

theorem ofByte?_eq_some_iff {byte : UInt8} {op : Opcode} :
    ofByte? byte = some op ↔ byte = op.code := by
  constructor
  · intro h
    have := List.find?_some h
    simpa using (beq_iff_eq.1 this).symm
  · rintro rfl
    exact ofByte?_code op

end Opcode
end StackMachine
