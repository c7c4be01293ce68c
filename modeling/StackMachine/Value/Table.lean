import StackMachine.Value.Basic

/-!
# Tables

A table keeps its entries in the order in which their keys were first set, each with flags, and
perhaps a prototype that is asked for what the table itself does not have. An entry is found by hash
and equality; a number that no entry has by its bits is looked for again by equality alone, because
numbers that count as equal need not have the same bits.
-/

namespace StackMachine

/-! ## Flags -/

/-- What is allowed with an entry. -/
structure Flags where
  isPublic : Bool
  isMutable : Bool
deriving DecidableEq, Repr

namespace Flags

/-- The flags of an entry that was written without any: public and mutable. -/
def standard : Flags := ⟨true, true⟩

/-- The flags as a number: one for public, two for mutable. -/
def bits (f : Flags) : Nat := f.isPublic.toNat + 2 * f.isMutable.toNat

/-- The flags that a number from zero to three stands for. -/
def ofBits? (n : Nat) : Option Flags :=
  if n < 4 then some ⟨n % 2 == 1, n / 2 == 1⟩ else none

/-- Whether all of the other flags are set. -/
def contains (f g : Flags) : Bool := (!g.isPublic || f.isPublic) && (!g.isMutable || f.isMutable)

/-- The flags set in either. -/
def union (f g : Flags) : Flags := ⟨f.isPublic || g.isPublic, f.isMutable || g.isMutable⟩

end Flags

/-! ## Entries -/

/-- A key with its value and flags. -/
structure Entry where
  key : Scalar
  value : Value
  flags : Flags
deriving DecidableEq

/-- A table: its entries in insertion order, and its prototype. -/
structure Table where
  entries : List Entry := []
  prototype : Option Value := none
deriving DecidableEq, Inhabited

namespace Table

/-- The place of the entry that matches a key. -/
def position? (t : Table) (key : Scalar) : Option Nat :=
  match t.entries.findIdx? fun e => e.key.equals key && e.key.hash == key.hash with
  | some i => some i
  | none =>
    match key with
    | .number _ => t.entries.findIdx? fun e => e.key.equals key
    | _ => none

/-- The entry that matches a key; the prototype is not asked. -/
def find? (t : Table) (key : Scalar) : Option Entry :=
  (t.position? key).bind fun i => t.entries[i]?

/-- The table after a key is set. An entry that matches keeps its key and its place; else a new one
comes last. -/
def set (t : Table) (key : Scalar) (value : Value) (flags : Flags) : Table :=
  match t.position? key with
  | some i => { t with entries := t.entries.modify i fun e => { e with value, flags } }
  | none => { t with entries := t.entries ++ [⟨key, value, flags⟩] }

/-- The table without the entry at a place; the others keep their order. -/
def eraseAt (t : Table) (i : Nat) : Table := { t with entries := t.entries.eraseIdx i }

/-- The entries that are shown when the table is printed. -/
def publicEntries (t : Table) : List Entry := t.entries.filter (·.flags.isPublic)

end Table
end StackMachine
