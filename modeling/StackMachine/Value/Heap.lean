import StackMachine.Value.Table

/-!
# The heap

Arrays and tables live in the heap and are shared by reference; nothing is ever freed. Reading
through a reference that was not handed out by the heap gives an empty container, so that every
reading is total.
-/

namespace StackMachine

/-- The containers that values refer to, and how many strings were made. -/
structure Heap where
  arrays : Array (Array Value) := #[]
  tables : Array Table := #[]
  stringCount : Nat := 0

namespace Heap

/-! ## Reading -/

/-- The items of an array. -/
def items (h : Heap) (id : Nat) : Array Value := h.arrays.getD id #[]

/-- The table of a reference. -/
def tableAt (h : Heap) (id : Nat) : Table := h.tables.getD id {}

/-- Every container of the heap. -/
def refs (h : Heap) : List Ref :=
  (List.range h.arrays.size).map .array ++ (List.range h.tables.size).map .table

theorem items_eq_empty {h : Heap} {id : Nat} (hid : ¬id < h.arrays.size) : h.items id = #[] := by
  simp [items, Array.getD, hid]

theorem tableAt_eq_empty {h : Heap} {id : Nat} (hid : ¬id < h.tables.size) :
    h.tableAt id = {} := by
  simp [tableAt, Array.getD, hid]

theorem array_mem_refs {h : Heap} {id : Nat} (hid : id < h.arrays.size) :
    Ref.array id ∈ h.refs := by
  simp [refs, hid]

theorem table_mem_refs {h : Heap} {id : Nat} (hid : id < h.tables.size) :
    Ref.table id ∈ h.refs := by
  simp [refs, hid]

/-! ## Making -/

/-- A new string without a hash of its own. -/
def newString (h : Heap) (text : String) : Value × Heap :=
  (.string { text, id := h.stringCount }, { h with stringCount := h.stringCount + 1 })

/-- A new string that comes with a hash. -/
def newHashedString (h : Heap) (text : String) (hash : UInt64) : Value × Heap :=
  (.string { text, presetHash := some hash, id := h.stringCount },
    { h with stringCount := h.stringCount + 1 })

/-- A new array. -/
def newArray (h : Heap) (items : Array Value) : Value × Heap :=
  (.array h.arrays.size, { h with arrays := h.arrays.push items })

/-- A new table. -/
def newTable (h : Heap) (t : Table) : Value × Heap :=
  (.table h.tables.size, { h with tables := h.tables.push t })

/-! ## Changing -/

/-- The heap with the items of one array changed. -/
def modifyItems (h : Heap) (id : Nat) (f : Array Value → Array Value) : Heap :=
  { h with arrays := h.arrays.modify id f }

/-- The heap with one table changed. -/
def modifyTable (h : Heap) (id : Nat) (f : Table → Table) : Heap :=
  { h with tables := h.tables.modify id f }

/-! ## Conditions -/

/-- Whether a condition takes a value for true. Of the containers only an empty array is not. -/
def truthy (h : Heap) : Value → Bool
  | .scalar s => s.truthy
  | .array id => !(h.items id).isEmpty
  | .table _ => true

end Heap
end StackMachine
