import StackMachine.Value.Heap

/-!
# Rendering

The text of a value. Containers show their parts between brackets, a table only its public entries.
A container met again inside itself is not opened a second time, so the rendering of cyclic data
ends: every container that is opened is one fewer to open.
-/

namespace StackMachine.Heap

/-! ## The parts that are shown -/

/-- The parts of a container that are shown, each with the text before it: the items of an array,
and the public entries of a table with their keys. -/
def shown (h : Heap) : Ref → List (String × Value)
  | .array id => (h.items id).toList.map fun v => ("", v)
  | .table id => (h.tableAt id).publicEntries.map fun e => (e.key.quotedText ++ ": ", e.value)

theorem mem_refs_of_shown {h : Heap} {r : Ref} {part : String × Value} (hp : part ∈ h.shown r) :
    r ∈ h.refs := by
  cases r with
  | array id =>
    by_cases hid : id < h.arrays.size
    · exact array_mem_refs hid
    · simp [shown, items_eq_empty hid] at hp
  | table id =>
    by_cases hid : id < h.tables.size
    · exact table_mem_refs hid
    · simp [shown, tableAt_eq_empty hid, Table.publicEntries] at hp

/-! ## Containers that are still closed -/

/-- How many containers of the heap are not yet open. -/
def closedCount (h : Heap) (opened : List Ref) : Nat :=
  h.refs.countP (· ∉ opened)

theorem closedCount_cons_lt {h : Heap} {r : Ref} {opened : List Ref} (hr : r ∈ h.refs)
    (hc : r ∉ opened) : h.closedCount (r :: opened) < h.closedCount opened := by
  unfold closedCount
  generalize h.refs = refs at hr
  induction refs with
  | nil => simp at hr
  | cons s refs ih =>
    have hle : refs.countP (· ∉ r :: opened) ≤ refs.countP (· ∉ opened) :=
      List.countP_mono_left (by simp)
    by_cases hsr : s = r
    · subst hsr
      simp [hc] at hle ⊢
      omega
    · have hlt := ih (by simpa [Ne.symm hsr] using hr)
      by_cases hs : s ∈ opened <;> simp [hs, hsr] at hlt ⊢ <;> omega

end StackMachine.Heap

namespace StackMachine

/-- The text between the brackets of a container. -/
def Ref.bracketed (r : Ref) (inner : String) : String :=
  match r with
  | .array _ => "[" ++ inner ++ "]"
  | .table _ => "\x7b" ++ inner ++ "\x7d"

namespace Heap

/-- The text of a value inside the containers that are open, innermost first. A string that stands
in none of them is written raw. -/
def renderIn (h : Heap) (opened : List Ref) (v : Value) : String :=
  match v with
  | .scalar s => if opened.isEmpty then s.text else s.quotedText
  | .ref r =>
    if hr : r ∈ opened then r.bracketed "..."
    else
      r.bracketed <| ", ".intercalate <| (h.shown r).attach.map fun ⟨(key, part), hp⟩ =>
        have := closedCount_cons_lt (mem_refs_of_shown hp) hr
        key ++ h.renderIn (r :: opened) part
termination_by h.closedCount opened

/-- The text of a container that is opened, from the texts of its parts. -/
theorem renderIn_ref (h : Heap) {opened : List Ref} {r : Ref} (hr : r ∉ opened) :
    h.renderIn opened (.ref r) = r.bracketed (", ".intercalate
      ((h.shown r).map fun part => part.1 ++ h.renderIn (r :: opened) part.2)) := by
  have hparts : ((h.shown r).attach.map fun part =>
      part.1.1 ++ h.renderIn (r :: opened) part.1.2) =
      (h.shown r).map fun part => part.1 ++ h.renderIn (r :: opened) part.2 :=
    List.attach_map_val (f := fun part : String × Value =>
      part.1 ++ h.renderIn (r :: opened) part.2)
  rw [renderIn, dif_neg hr, ← hparts]

/-- The text of a value. -/
def render (h : Heap) (v : Value) : String := h.renderIn [] v

end Heap
end StackMachine
