import StackMachine.Value.Rendering

/-!
# Indexed access

Reading, writing and deleting by key: an array takes whole numbers, a table takes scalars and
leaves what it does not have to its prototype. A failed access says why and changes nothing.
-/

namespace StackMachine

/-! ## What can go wrong -/

/-- Why an access failed. Keys are kept as the text that is shown. -/
inductive AccessError where
  | notHashable (tag : Tag)
  | notIndexable (tag : Tag)
  | keyNotFound (key : String)
  | indexOutOfRange (index length : Nat)
  | invalidIndex (key : String)
  | chainTooDeep (limit : Nat)
deriving DecidableEq, Repr

/-- The message of a failed access. -/
def AccessError.message : AccessError → String
  | .notHashable tag => tag.name ++ " values cannot be hashed"
  | .notIndexable tag => tag.name ++ " values do not support indexing"
  | .keyNotFound key => "key not found: " ++ key
  | .indexOutOfRange index length =>
    "index " ++ Text.decimal index ++ " out of range for array of length " ++
      Text.decimal length
  | .invalidIndex key => "invalid array index " ++ key
  | .chainTooDeep limit =>
    "prototype chain deeper than " ++ Text.decimal limit ++ " links"

/-! ## Keys -/

/-- The key that a value is; containers are none. -/
def Value.toKey : Value → Except AccessError Scalar
  | .scalar s => .ok s
  | .ref r => .error (.notHashable r.tag)

/-- The structural hash of a value; containers have none. -/
def Value.hash (v : Value) : Except AccessError UInt64 := v.toKey.map Scalar.hash

/-- The place in an array that a value stands for: an integer from zero to 2⁶⁴, where the largest
place is 2⁶⁴ − 1. -/
def Value.toIndex? : Value → Option Nat
  | .number x => do
    let n ← x.toInt?
    if 0 ≤ n ∧ n ≤ UInt64.size then some (min n.toNat (UInt64.size - 1)) else none
  | _ => none

namespace Heap

/-- The place in an array that a key names. -/
def index (h : Heap) (key : Value) : Except AccessError Nat :=
  match key.toIndex? with
  | some i => .ok i
  | none => .error (.invalidIndex (h.render key))

/-! ## Reading -/

/-- The item of an array at a key. -/
def item (h : Heap) (id : Nat) (key : Value) : Except AccessError Value := do
  let i ← h.index key
  match (h.items id)[i]? with
  | some v => .ok v
  | none => .error (.indexOutOfRange i (h.items id).size)

/-- The longest chain of prototypes that is followed. -/
def chainLimit : Nat := 256

/-- What a table has for a key, itself or by following at most so many links to prototypes that are
tables. A prototype of another kind is asked as itself. -/
def lookupWithin (h : Heap) (links : Nat) (id : Nat) (key : Scalar) : Except AccessError Value :=
  match (h.tableAt id).find? key with
  | some e => .ok e.value
  | none =>
    match (h.tableAt id).prototype with
    | none => .error (.keyNotFound key.text)
    | some (.scalar s) => .error (.notIndexable s.tag)
    | some (.array a) => h.item a (.scalar key)
    | some (.table next) =>
      match links with
      | 0 => .error (.chainTooDeep chainLimit)
      | links + 1 => h.lookupWithin links next key

/-- What a table has for a key, itself or through its prototypes. -/
def lookup (h : Heap) (id : Nat) (key : Value) : Except AccessError Value := do
  let k ← key.toKey
  h.lookupWithin chainLimit id k

/-- The own entry of a table for a key. -/
def own? (h : Heap) (id : Nat) (key : Value) : Except AccessError (Option Entry) := do
  let k ← key.toKey
  pure ((h.tableAt id).find? k)

/-- Whether a table has an own entry for a key. -/
def hasOwn (h : Heap) (id : Nat) (key : Value) : Except AccessError Bool :=
  (h.own? id key).map Option.isSome

/-- The flags of the own entry of a table for a key. -/
def ownFlags? (h : Heap) (id : Nat) (key : Value) : Except AccessError (Option Flags) :=
  (h.own? id key).map (Option.map Entry.flags)

/-- The value at a key of a container. -/
def get (h : Heap) (container key : Value) : Except AccessError Value :=
  match container with
  | .scalar s => .error (.notIndexable s.tag)
  | .array id => h.item id key
  | .table id => h.lookup id key

/-- What a table at hand has for a key, itself or through its prototype. The first link is then one
that was followed already. -/
def lookupFrom (h : Heap) (t : Table) (key : Value) : Except AccessError Value := do
  let k ← key.toKey
  match t.find? k with
  | some e => .ok e.value
  | none =>
    match t.prototype with
    | none => .error (.keyNotFound k.text)
    | some (.table next) => h.lookupWithin (chainLimit - 1) next k
    | some prototype => h.get prototype (.scalar k)

/-! ## Writing -/

/-- The heap after a key of a table is set. -/
def setEntry (h : Heap) (id : Nat) (key value : Value) (flags : Flags) :
    Except AccessError Heap := do
  let k ← key.toKey
  pure (h.modifyTable id (·.set k value flags))

/-- The heap after an item of an array is set. The place after the last item extends the array. -/
def setItem (h : Heap) (id : Nat) (key value : Value) : Except AccessError Heap := do
  let i ← h.index key
  let length := (h.items id).size
  if i < length then pure (h.modifyItems id (·.setIfInBounds i value))
  else if i = length then pure (h.modifyItems id (·.push value))
  else .error (.indexOutOfRange i length)

/-- The heap after a key of a container is set. Table entries written so are public and mutable. -/
def set (h : Heap) (container key value : Value) : Except AccessError Heap :=
  match container with
  | .scalar s => .error (.notIndexable s.tag)
  | .array id => h.setItem id key value
  | .table id => h.setEntry id key value .standard

/-! ## Deleting -/

/-- The value of an own entry that is deleted, and the heap without the entry. -/
def deleteEntry (h : Heap) (id : Nat) (key : Value) : Except AccessError (Value × Heap) := do
  let k ← key.toKey
  match (h.tableAt id).position? k with
  | none => .error (.keyNotFound k.text)
  | some i =>
    match (h.tableAt id).entries[i]? with
    | none => .error (.keyNotFound k.text)
    | some e => pure (e.value, h.modifyTable id (·.eraseAt i))

/-- The item that is deleted, and the heap in which the later items have moved down. -/
def deleteItem (h : Heap) (id : Nat) (key : Value) : Except AccessError (Value × Heap) := do
  let i ← h.index key
  match (h.items id)[i]? with
  | none => .error (.indexOutOfRange i (h.items id).size)
  | some v => pure (v, h.modifyItems id (·.eraseIdxIfInBounds i))

/-- The value at a key of a container and the heap without it. -/
def delete (h : Heap) (container key : Value) : Except AccessError (Value × Heap) :=
  match container with
  | .scalar s => .error (.notIndexable s.tag)
  | .array id => h.deleteItem id key
  | .table id => h.deleteEntry id key

end Heap
end StackMachine
