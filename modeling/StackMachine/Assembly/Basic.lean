import StackMachine.Assembly.Scopes
import StackMachine.Program.Basic

/-!
# Assembling

A program under construction: code, string pool, labels and scopes. Labels exist only while code is
assembled. A label remembers its address, once it is placed, and the sites where that address is
to be written; finishing writes it there. A step that fails changes nothing.
-/

namespace StackMachine

/-! ## Labels and immediates -/

/-- A label, by its place among the labels of an assembly. -/
structure Label where
  index : Nat
deriving DecidableEq, Repr

/-- What is known of a label. -/
structure LabelSlot where
  name : Option String := none
  address : Option Nat := none
  /-- Where in the code the address is to be written, newest first. -/
  sites : List Nat := []
deriving DecidableEq

/-- An operand given to an instruction that is emitted. -/
inductive Immediate where
  | u8 (n : UInt8)
  | u16 (n : UInt16)
  | u32 (n : UInt32)
  | u64 (n : UInt64)
  | f64 (x : Number)
  | text (s : String)
deriving DecidableEq

/-- The shape of an operand that is given. -/
def Immediate.shape : Immediate → Shape
  | u8 _ => .u8
  | u16 _ => .u16
  | u32 _ => .u32
  | u64 _ => .u64
  | f64 _ => .f64
  | text _ => .string

/-! ## What can go wrong -/

/-- What was given in the place of an operand. -/
inductive Given where
  | operand (shape : Shape)
  | label
deriving DecidableEq, Repr

/-- The name of what was given. -/
def Given.name : Given → String
  | operand shape => shape.name
  | label => "label"

/-- Why a step of assembling fails. -/
inductive AssemblyError where
  | invalidOperand (opcode : Opcode) (given : Given)
  | unresolvedLabel (label : Label) (name : Option String)
  | foreignLabel (label : Label)
  | duplicateName (name : String)
  | unknownName (name : String)
  | scopeUnderflow
  | poolFull
deriving DecidableEq, Repr

namespace AssemblyError

/-- The message of an assembly error. -/
def message : AssemblyError → String
  | invalidOperand opcode given =>
    opcode.mnemonic ++ " takes a " ++ opcode.shape.name ++ " operand, got " ++ given.name
  | unresolvedLabel label _ => "label L" ++ Text.decimal label.index ++ " was never resolved"
  | foreignLabel label =>
    "label L" ++ Text.decimal label.index ++ " does not belong to this assembler"
  | duplicateName name => "variable '" ++ name ++ "' is already declared in this scope"
  | unknownName name => "unknown variable '" ++ name ++ "'"
  | scopeUnderflow => "scope exit without a matching enter"
  | poolFull => "string pool is full"

/-- Whether the error points at a fault of the producer of the steps and not at bad input. -/
def isInternal : AssemblyError → Bool
  | foreignLabel _ => true
  | _ => false

end AssemblyError

/-! ## The assembly -/

/-- A program under construction. -/
structure Assembly where
  code : Array UInt8 := #[]
  strings : Array PoolEntry := #[]
  labels : Array LabelSlot := #[]
  scopes : Scopes := {}

namespace Assembly

/-- The offset of the next instruction. -/
def position (a : Assembly) : Nat := a.code.size

/-- Bytes are appended to the code. -/
def append (a : Assembly) (bytes : List UInt8) : Assembly := { a with code := a.code ++ bytes }

/-! ### Emitting -/

/-- An instruction without an operand. -/
def emit (a : Assembly) (op : Opcode) : Except AssemblyError Assembly :=
  if op.shape = .none then .ok (a.append [op.code])
  else .error (.invalidOperand op (.operand .none))

/-- An instruction with an operand. A text goes to the end of the pool, where equal texts are kept
apart, and the operand is its index. -/
def emitWith (a : Assembly) (op : Opcode) (imm : Immediate) : Except AssemblyError Assembly :=
  if imm.shape ≠ op.shape then .error (.invalidOperand op (.operand imm.shape))
  else
    match imm with
    | .u8 n => .ok (a.append (op.code :: (Argument.u8 n).bytes))
    | .u16 n => .ok (a.append (op.code :: (Argument.u16 n).bytes))
    | .u32 n => .ok (a.append (op.code :: (Argument.u32 n).bytes))
    | .u64 n => .ok (a.append (op.code :: (Argument.u64 n).bytes))
    | .f64 x => .ok (a.append (op.code :: (Argument.f64 x).bytes))
    | .text s =>
      if a.strings.size < UInt32.size then
        let index := UInt32.ofNat a.strings.size
        .ok { a.append (op.code :: (Argument.string index).bytes) with
          strings := a.strings.push (.ofText s) }
      else
        .error .poolFull

/-! ### Labels -/

/-- A new label, perhaps with a name for error reports. -/
def newLabel (a : Assembly) (name : Option String) : Label × Assembly :=
  (⟨a.labels.size⟩, { a with labels := a.labels.push { name } })

/-- Whether a label was made by this assembly, as far as its place tells. -/
def knows (a : Assembly) (label : Label) : Bool := label.index < a.labels.size

/-- A label is placed at the current position; placing it again moves it. -/
def placeLabel (a : Assembly) (label : Label) : Except AssemblyError Assembly :=
  if a.knows label then
    .ok { a with
      labels := a.labels.modify label.index fun slot => { slot with address := some a.position } }
  else
    .error (.foreignLabel label)

/-- What stands for an address that is not yet known. -/
def placeholder : List UInt8 := List.replicate 8 0xff

/-- Eight bytes are reserved for the address of a label. -/
def referTo (a : Assembly) (label : Label) : Except AssemblyError Assembly :=
  if a.knows label then
    .ok { a.append placeholder with
      labels := a.labels.modify label.index fun slot =>
        { slot with sites := a.position :: slot.sites } }
  else
    .error (.foreignLabel label)

/-- An instruction whose operand is the address of a label. -/
def emitJump (a : Assembly) (op : Opcode) (label : Label) : Except AssemblyError Assembly :=
  if op.shape ≠ .u64 then .error (.invalidOperand op .label)
  else if a.knows label then (a.append [op.code]).referTo label
  else .error (.foreignLabel label)

/-! ### Scopes and variables -/

/-- A scope is opened, here and when the program runs. -/
def enterScope (a : Assembly) : Except AssemblyError Assembly :=
  { a with scopes := a.scopes.enter }.emit .enterScope

/-- The innermost scope is closed, here and when the program runs. -/
def exitScope (a : Assembly) : Except AssemblyError Assembly :=
  match a.scopes.exit? with
  | some scopes => { a with scopes }.emit .leaveScope
  | none => .error .scopeUnderflow

/-- A variable is declared in the innermost scope and gets its index. No code is emitted. -/
def declare (a : Assembly) (name : String) (isMutable : Bool) :
    Except AssemblyError (Nat × Assembly) :=
  if a.scopes.declares name then .error (.duplicateName name)
  else .ok (a.scopes.visible.length, { a with scopes := a.scopes.push ⟨name, isMutable⟩ })

/-- What a name stands for here. -/
def resolve (a : Assembly) (name : String) : Except AssemblyError Binding :=
  match a.scopes.resolve? name with
  | some binding => .ok binding
  | none => .error (.unknownName name)

/-! ### Finishing -/

/-- Bytes are written over the code at a site. -/
def writeAt (code : Array UInt8) (site : Nat) : List UInt8 → Array UInt8
  | [] => code
  | b :: bs => writeAt (code.setIfInBounds site b) (site + 1) bs

/-- The address of a label is written at each of its sites. -/
def patch (code : Array UInt8) (sites : List Nat) (address : Nat) : Array UInt8 :=
  sites.foldl (fun code site => writeAt code site (Bytes.littleEndian 8 address)) code

/-- The code in which the addresses of labels are written, where the first label has the given
index. The first label that was never placed is an error. -/
def patchAll (code : Array UInt8) (index : Nat) :
    List LabelSlot → Except AssemblyError (Array UInt8)
  | [] => .ok code
  | slot :: rest =>
    match slot.address with
    | none => .error (.unresolvedLabel ⟨index⟩ slot.name)
    | some address => patchAll (patch code slot.sites address) (index + 1) rest

/-- The finished program. -/
def finish (a : Assembly) : Except AssemblyError Program := do
  let code ← patchAll a.code 0 a.labels.toList
  pure { code, strings := a.strings }

end Assembly
end StackMachine
