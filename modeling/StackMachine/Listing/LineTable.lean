import StackMachine.Listing.Lines

/-!
# Tables of lines

A table holds the offsets at which the lines of a text begin. It is made once for a text: the line
of an offset is then found by halving, and the text of a line is cut out between where it begins and
where the next one does.
-/

namespace StackMachine

/-! ## Halving -/

section

variable {α : Type} {p : α → Bool} {xs : Array α}

/-- The partition point of an array, known to lie past `base` members and no further than `size`
members after that. -/
def partitionPointFrom (p : α → Bool) (xs : Array α) (base size : Nat) (hpos : 0 < size)
    (hsize : base + size ≤ xs.size) : Nat :=
  if _ : 1 < size then
    if p xs[base + size / 2] then
      partitionPointFrom p xs (base + size / 2) (size - size / 2) (by omega) (by omega)
    else partitionPointFrom p xs base (size - size / 2) (by omega) (by omega)
  else if p xs[base] then base + 1 else base
termination_by size

/-- How many members of an array pass a test, where no member that passes stands behind one that
fails. -/
def partitionPoint (p : α → Bool) (xs : Array α) : Nat :=
  if hpos : 0 < xs.size then partitionPointFrom p xs 0 xs.size hpos (by omega) else 0

theorem partitionPointFrom_le {base size : Nat} (hpos : 0 < size)
    (hsize : base + size ≤ xs.size) :
    partitionPointFrom p xs base size hpos hsize ≤ base + size := by
  fun_induction partitionPointFrom p xs base size hpos hsize with
  | case1 base size hpos hsize hmore htest ih => omega
  | case2 base size hpos hsize hmore htest ih => omega
  | case3 => omega
  | case4 => omega

theorem partitionPoint_le_size (p : α → Bool) (xs : Array α) : partitionPoint p xs ≤ xs.size := by
  unfold partitionPoint
  split
  · exact Nat.le_trans (partitionPointFrom_le _ _) (Nat.le_of_eq (Nat.zero_add _))
  · exact Nat.zero_le _

end

/-! ## Bytes of a text -/

namespace Listing

/-- The offsets of the newlines among characters that begin at an offset. -/
def newlines (offset : Nat) : List Char → List Nat
  | [] => []
  | c :: cs =>
    if c = '\n' then offset :: newlines (offset + c.utf8Size) cs
    else newlines (offset + c.utf8Size) cs

theorem le_of_mem_newlines {offset n : Nat} {cs : List Char} (h : n ∈ newlines offset cs) :
    offset ≤ n := by
  induction cs generalizing offset with
  | nil => contradiction
  | cons c cs ih =>
    rw [newlines] at h
    split at h
    · rcases List.mem_cons.1 h with rfl | h
      · exact Nat.le_refl _
      · exact Nat.le_trans (Nat.le_add_right _ _) (ih h)
    · exact Nat.le_trans (Nat.le_add_right _ _) (ih h)

theorem newlines_ascending (offset : Nat) (cs : List Char) :
    (newlines offset cs).Pairwise (· < ·) := by
  induction cs generalizing offset with
  | nil => exact .nil
  | cons c cs ih =>
    rw [newlines]
    split
    · refine .cons (fun n hn => ?_) (ih _)
      have hle := le_of_mem_newlines hn
      have hc := c.utf8Size_pos
      omega
    · exact ih _

/-- Characters cut after so many bytes, if that is between two of them or at one of their ends. -/
def cutBytes? : Nat → List Char → Option (List Char × List Char)
  | 0, cs => some ([], cs)
  | _ + 1, [] => none
  | n + 1, c :: cs =>
    if c.utf8Size ≤ n + 1 then
      (cutBytes? (n + 1 - c.utf8Size) cs).map fun (before, after) => (c :: before, after)
    else none

end Listing

/-- The text of a span, if the span begins and ends between two characters of the text or at one of
its ends. -/
def Span.slice? (s : Span) (source : String) : Option String :=
  if s.start ≤ s.stop then do
    let (_, rest) ← Listing.cutBytes? s.start source.toList
    let (text, _) ← Listing.cutBytes? (s.stop - s.start) rest
    pure (String.ofList text)
  else none

/-! ## Tables -/

/-- Where the lines of a text begin, in ascending order, and where the text ends. The first line
begins with the text. -/
structure LineTable where
  starts : Array Nat
  stop : Nat
  first : starts[0]? = some 0
  ascending : starts.toList.Pairwise (· < ·)

namespace LineTable

/-- The table of a text: a line begins after each newline. -/
def ofText (source : String) : LineTable where
  starts := (0 :: (Listing.newlines 0 source.toList).map (· + 1)).toArray
  stop := source.utf8ByteSize
  first := rfl
  ascending := by
    refine .cons (fun start h => ?_) ?_
    · obtain ⟨n, -, rfl⟩ := List.mem_map.1 h
      exact Nat.succ_pos n
    · exact (Listing.newlines_ascending 0 source.toList).map _ fun _ _ => Nat.succ_lt_succ

theorem size_starts_pos (t : LineTable) : 0 < t.starts.size :=
  (Array.getElem?_eq_some_iff.1 t.first).1

/-- The line and column of an offset, both counted from one. Offsets past the end are on the last
line. -/
def lineAndColumn (t : LineTable) (offset : Nat) : Nat × Nat :=
  let line := max (partitionPoint (· ≤ offset) t.starts) 1
  have : line - 1 < t.starts.size := by
    have hle := partitionPoint_le_size (· ≤ offset) t.starts
    have hpos := t.size_starts_pos
    omega
  (line, offset - t.starts[line - 1] + 1)

/-- The bytes of the line with a number, without the newline at its end. -/
def lineRange? (t : LineTable) : Nat → Option Span
  | 0 => none
  | n + 1 => t.starts[n]?.map fun start =>
    match t.starts[n + 1]? with
    | some next => ⟨start, next - 1⟩
    | none => ⟨start, t.stop⟩

/-- The text of the line with a number, or nothing if there is no such line. -/
def lineText (t : LineTable) (source : String) (number : Nat) : String :=
  match (t.lineRange? number).bind (·.slice? source) with
  | some text => String.ofList (Listing.dropReturn text.toList)
  | none => ""

end LineTable
end StackMachine
