import StackMachine.Bytes
import StackMachine.Fnv
import StackMachine.Number.Text
import StackMachine.Text.Numeral
import StackMachine.Text.Quoted

/-!
# Values

A value is a scalar, which is complete in itself, or a reference to a container of the heap. Only
scalars have a structural hash, so only scalars are keys of tables.
-/

namespace StackMachine

/-! ## Tags -/

/-- The kinds of values. -/
inductive Tag where
  | nil
  | bool
  | number
  | string
  | array
  | table
  | function
deriving DecidableEq, Repr

/-- The number of a kind, which also sets its hashes apart from those of the others. -/
def Tag.code : Tag → UInt8
  | .nil => 0
  | .bool => 1
  | .number => 2
  | .string => 3
  | .array => 4
  | .table => 5
  | .function => 6

/-- The name of a kind in messages. -/
def Tag.name : Tag → String
  | .nil => "nil"
  | .bool => "bool"
  | .number => "number"
  | .string => "string"
  | .array => "array"
  | .table => "table"
  | .function => "function"

/-! ## Scalars -/

/-- The structural hash of a string, from its UTF-8 bytes. -/
def hashText (text : String) : UInt64 :=
  Fnv.tagged Tag.string.code text.toUTF8.data.toList

/-- A string with its identity. A hash that came with the string is trusted; without one it is
computed from the text. -/
structure SharedString where
  text : String
  presetHash : Option UInt64 := none
  /-- Told apart from every other string that was made, equal in text or not. -/
  id : Nat
deriving DecidableEq

/-- The hash of a string: the preset one, or that of its text. -/
def SharedString.hash (s : SharedString) : UInt64 := s.presetHash.getD (hashText s.text)

/-- A code address with the number of arguments that a call must have. -/
structure Function where
  address : UInt64
  arity : UInt16
deriving DecidableEq

/-- A value without parts. -/
inductive Scalar where
  | nil
  | bool (b : Bool)
  | number (x : Number)
  | string (s : SharedString)
  | function (f : Function)
deriving DecidableEq

namespace Scalar

/-- The kind of a scalar. -/
def tag : Scalar → Tag
  | nil => .nil
  | bool _ => .bool
  | number _ => .number
  | string _ => .string
  | function _ => .function

/-- What is hashed after the tag: nothing of nil, the bits of a number with one zero for both, and
the address before the arity of a function. The hash of a string is its own. -/
def payload : Scalar → List UInt8
  | nil => []
  | bool b => [if b then 1 else 0]
  | number x => Bytes.littleEndian 8 x.unsignedZero.bits.toNat
  | string s => s.text.toUTF8.data.toList
  | function f => Bytes.littleEndian 8 f.address.toNat ++ Bytes.littleEndian 2 f.arity.toNat

/-- The structural hash. Numbers hash by their bits, so that numbers which count as equal may have
different hashes. -/
def hash : Scalar → UInt64
  | string s => s.hash
  | s => Fnv.tagged s.tag.code s.payload

/-- Structural equality. Scalars of different kinds are never equal, and strings are equal when
both their texts and their hashes are. -/
def equals : Scalar → Scalar → Bool
  | nil, nil => true
  | bool a, bool b => a == b
  | number x, number y => x.equals y
  | string s, string t => s.text == t.text && s.hash == t.hash
  | function f, function g => f == g
  | _, _ => false

theorem equals_comm (a b : Scalar) : a.equals b = b.equals a := by
  cases a <;> cases b <;>
    simp only [equals, Number.equals_comm, Bool.beq_comm]

/-- Whether a condition takes the scalar for true: neither nil, false, a zero nor empty text. -/
def truthy : Scalar → Bool
  | nil => false
  | bool b => b
  | number x => !x.isZero
  | string s => s.text != ""
  | function _ => true

/-- The text of a scalar with strings written by the given function. -/
def textWith (string : String → String) : Scalar → String
  | .nil => "nil"
  | .bool b => if b then "true" else "false"
  | .number x => x.text
  | .string s => string s.text
  | .function f =>
    "<fn @" ++ Text.decimal f.address.toNat ++ "/" ++ Text.decimal f.arity.toNat ++ ">"

/-- The text of a scalar that stands alone: strings as they are. -/
def text : Scalar → String := textWith id

/-- The text of a scalar inside a container: strings between quotes. -/
def quotedText : Scalar → String := textWith Text.quoted

end Scalar

/-! ## References and values -/

/-- A container of the heap. -/
inductive Ref where
  | array (id : Nat)
  | table (id : Nat)
deriving DecidableEq

/-- The kind of a container. -/
def Ref.tag : Ref → Tag
  | .array _ => .array
  | .table _ => .table

/-- A value of the machine. -/
inductive Value where
  | scalar (s : Scalar)
  | ref (r : Ref)
deriving DecidableEq

namespace Value

/-- The value that stands for nothing. -/
@[match_pattern] abbrev nil : Value := .scalar .nil

/-- A truth value. -/
@[match_pattern] abbrev bool (b : Bool) : Value := .scalar (.bool b)

/-- A number value. -/
@[match_pattern] abbrev number (x : Number) : Value := .scalar (.number x)

/-- A string value. -/
@[match_pattern] abbrev string (s : SharedString) : Value := .scalar (.string s)

/-- A function value. -/
@[match_pattern] abbrev function (f : Function) : Value := .scalar (.function f)

/-- A reference to an array of the heap. -/
@[match_pattern] abbrev array (id : Nat) : Value := .ref (.array id)

/-- A reference to a table of the heap. -/
@[match_pattern] abbrev table (id : Nat) : Value := .ref (.table id)

instance : Inhabited Value := ⟨nil⟩

/-- The kind of a value. -/
def tag : Value → Tag
  | scalar s => s.tag
  | ref r => r.tag

/-- Whether the value is nil. -/
def isNil : Value → Bool
  | nil => true
  | _ => false

/-- The number of a number value. -/
def asNumber? : Value → Option Number
  | number x => some x
  | _ => none

/-- The text of a string value. -/
def asText? : Value → Option String
  | string s => some s.text
  | _ => none

end Value

/-! ## Identity -/

/-- What a value shares with its copies: the text of a string, or the contents of a container. Those
that are made are told apart by their numbers. -/
inductive Payload where
  | text (id : Nat)
  | contents (r : Ref)
deriving DecidableEq

/-- The payload of a value. Scalars other than strings are complete without one. -/
def Value.payload? : Value → Option Payload
  | .string s => some (.text s.id)
  | .ref r => some (.contents r)
  | _ => none

/-- Where the payloads that a run makes are kept. The allocator decides it: in another run of the
same program the addresses may be others, and where a payload has been dropped a later one may be
kept. Whatever they are, no payload is at zero and all are aligned to words. -/
structure Addresses where
  of : Payload → Nat
  pos : ∀ p, 0 < of p
  aligned : ∀ p, 8 ∣ of p

/-- One word for each payload, in the order of their numbers. -/
def Addresses.numbered : Addresses where
  of
    | .text id => 8 * (3 * id + 1)
    | .contents (.array id) => 8 * (3 * id + 2)
    | .contents (.table id) => 8 * (3 * id + 3)
  pos := by rintro (_ | ⟨_ | _⟩) <;> exact Nat.mul_pos (by decide) (Nat.succ_pos _)
  aligned := by rintro (_ | ⟨_ | _⟩) <;> exact Nat.dvd_mul_right _ _

instance : Inhabited Addresses := ⟨.numbered⟩

/-- What is shown of the identity of a value: the address of its payload as a number, or nil. -/
def Addresses.shown (a : Addresses) (v : Value) : Value :=
  match v.payload? with
  | some p => .number (.ofNat (a.of p))
  | none => .nil

end StackMachine
