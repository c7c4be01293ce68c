import StackMachine.Listing.Lines
import StackMachine.Proofs.Prelude

/-!
# Places in a text

A place between two characters of a text lies as many bytes from the beginning as the characters
before it have. Its line is the one after the newlines among them, and its column counts the bytes
from the last of these newlines on (`lineAndColumn_of_split`). That line is made of the characters
from this newline to the next one (`getElem?_splitLines`).
-/

namespace StackMachine

namespace Listing

variable {cs before after line : List Char} {source : String}

/-! ## Bytes of characters -/

@[simp]
theorem byteLength_nil : byteLength [] = 0 := rfl

@[simp]
theorem byteLength_cons (c : Char) (cs : List Char) :
    byteLength (c :: cs) = c.utf8Size + byteLength cs := rfl

@[simp]
theorem byteLength_append (before after : List Char) :
    byteLength (before ++ after) = byteLength before + byteLength after := by
  induction before with
  | nil => simp
  | cons c before ih => simp [ih, Nat.add_assoc]

theorem byteLength_pos (hcs : cs ≠ []) : 0 < byteLength cs := by
  cases cs with
  | nil => contradiction
  | cons c cs =>
    have hc := c.utf8Size_pos
    simp only [byteLength_cons]
    omega

theorem byteLength_eq (cs : List Char) : byteLength cs = (String.ofList cs).utf8ByteSize := by
  induction cs with
  | nil => rfl
  | cons c cs ih =>
    rw [byteLength_cons, ih, ← List.singleton_append, String.ofList_append,
      String.utf8ByteSize_append, ← String.singleton_eq_ofList, String.utf8ByteSize_singleton]

theorem byteLength_toList (source : String) : byteLength source.toList = source.utf8ByteSize := by
  rw [byteLength_eq, String.ofList_toList]

/-! ## Lines -/

/-- The part of a line before a place, with the characters before that place given. -/
def lineBefore (before : List Char) : List Char :=
  (splitLines before).getLast (splitLines_ne_nil before)

/-- The part of a line after a place, with the characters after that place given. -/
def lineAfter (after : List Char) : List Char := after.takeWhile (· ≠ '\n')

/-- A text is a line without a newline, or such a line and a text after its newline. -/
theorem induction_on_lines {motive : List Char → Prop}
    (last : ∀ line, '\n' ∉ line → motive line)
    (more : ∀ line rest, '\n' ∉ line → motive rest → motive (line ++ '\n' :: rest))
    (cs : List Char) : motive cs := by
  induction hlength : cs.length using Nat.strongRecOn generalizing cs with
  | ind n ih =>
    by_cases hnewline : '\n' ∈ cs
    · obtain ⟨line, rest, rfl, hline⟩ := List.eq_append_cons_of_mem hnewline
      refine more line rest hline (ih rest.length ?_ rest rfl)
      subst hlength
      simp only [List.length_append, List.length_cons]
      omega
    · exact last cs hnewline

theorem splitLines_of_notMem (hline : '\n' ∉ line) : splitLines line = [line] := by
  induction line with
  | nil => rfl
  | cons c line ih =>
    rw [List.mem_cons, not_or] at hline
    rw [splitLines, if_neg (Ne.symm hline.1), ih hline.2]

theorem splitLines_append_newline (hline : '\n' ∉ line) (rest : List Char) :
    splitLines (line ++ '\n' :: rest) = line :: splitLines rest := by
  induction line with
  | nil => simp [splitLines]
  | cons c line ih =>
    rw [List.mem_cons, not_or] at hline
    rw [List.cons_append, splitLines, if_neg (Ne.symm hline.1), ih hline.2]

/-- Characters without a newline stand at the beginning of the first line. -/
theorem splitLines_append (hline : '\n' ∉ line) (after : List Char) :
    ∃ lines, splitLines (line ++ after) = (line ++ lineAfter after) :: lines := by
  induction line with
  | nil =>
    induction after with
    | nil => exact ⟨[], rfl⟩
    | cons c after ih =>
      obtain ⟨lines, hlines⟩ := ih
      rw [List.nil_append] at hlines ⊢
      by_cases hc : c = '\n'
      · exact ⟨splitLines after, by simp [splitLines, lineAfter, hc]⟩
      · exact ⟨lines, by simp [splitLines, hlines, lineAfter, hc]⟩
  | cons c line ih =>
    rw [List.mem_cons, not_or] at hline
    obtain ⟨lines, hlines⟩ := ih hline.2
    exact ⟨lines, by simp [splitLines, hlines, Ne.symm hline.1]⟩

theorem lineBefore_of_notMem (hline : '\n' ∉ line) : lineBefore line = line := by
  simp [lineBefore, splitLines_of_notMem hline]

theorem lineBefore_append_newline (hline : '\n' ∉ line) (rest : List Char) :
    lineBefore (line ++ '\n' :: rest) = lineBefore rest := by
  simp [lineBefore, splitLines_append_newline hline, List.getLast_cons (splitLines_ne_nil rest)]

/-- **The line and the column of a place**, when the first line has the given number. -/
theorem locate_splitLines (number : Nat) (before after : List Char) :
    locate number (byteLength before) (splitLines (before ++ after)) =
      (number + before.count '\n', byteLength (lineBefore before) + 1) := by
  induction before using induction_on_lines generalizing number with
  | last line hline =>
    obtain ⟨lines, hlines⟩ := splitLines_append hline after
    rw [hlines, List.count_eq_zero_of_not_mem hline, lineBefore_of_notMem hline]
    cases lines with
    | nil => rfl
    | cons next lines =>
      rw [locate, if_pos (by simp)]
      rfl
  | more line rest hline ih =>
    have hlines := splitLines_append_newline hline (rest ++ after)
    obtain ⟨next, lines, hrest⟩ := List.exists_cons_of_ne_nil (splitLines_ne_nil (rest ++ after))
    have hlong : ¬byteLength (line ++ '\n' :: rest) ≤ byteLength line := by
      simp only [byteLength_append, byteLength_cons, show Char.utf8Size '\n' = 1 from rfl]
      omega
    have hleft : byteLength (line ++ '\n' :: rest) - (byteLength line + 1) = byteLength rest := by
      simp only [byteLength_append, byteLength_cons, show Char.utf8Size '\n' = 1 from rfl]
      omega
    rw [List.append_assoc, List.cons_append, hlines, hrest, locate, if_neg hlong, hleft, ← hrest,
      ih, lineBefore_append_newline hline]
    simp [List.count_eq_zero_of_not_mem hline]
    omega

/-- **The line of a place** goes from the last newline before it to the next one after it. -/
theorem getElem?_splitLines (before after : List Char) :
    (splitLines (before ++ after))[before.count '\n']? =
      some (lineBefore before ++ lineAfter after) := by
  induction before using induction_on_lines with
  | last line hline =>
    obtain ⟨lines, hlines⟩ := splitLines_append hline after
    rw [hlines, List.count_eq_zero_of_not_mem hline, lineBefore_of_notMem hline]
    rfl
  | more line rest hline ih =>
    rw [List.append_assoc, List.cons_append, splitLines_append_newline hline,
      lineBefore_append_newline hline, List.count_append, List.count_eq_zero_of_not_mem hline,
      List.count_cons_self, Nat.zero_add, List.getElem?_cons_succ, ih]

theorem lineAndColumn_of_split (h : source.toList = before ++ after) :
    lineAndColumn source (byteLength before) =
      (before.count '\n' + 1, byteLength (lineBefore before) + 1) := by
  rw [lineAndColumn, h, locate_splitLines, Nat.add_comm 1]

theorem lineNumber_of_split (h : source.toList = before ++ after) :
    lineNumber source (byteLength before) = before.count '\n' + 1 := by
  rw [lineNumber, lineAndColumn_of_split h]

theorem lineText_of_split (h : source.toList = before ++ after) :
    lineText source (before.count '\n' + 1) =
      String.ofList (dropReturn (lineBefore before ++ lineAfter after)) := by
  rw [lineText, h, getElem?_splitLines]

end Listing

/-! ## Spans -/

/-- A span cuts characters out of a text: it begins and ends between two characters, with these
characters before it, inside it and after it. -/
structure Span.Cuts (s : Span) (source : String) (before cs after : List Char) : Prop where
  text : source.toList = before ++ (cs ++ after)
  start : s.start = Listing.byteLength before
  stop : s.stop = Listing.byteLength before + Listing.byteLength cs

/-- A span covers characters of a text. -/
def Span.Covers (s : Span) (source : String) (cs : List Char) : Prop :=
  ∃ before after, s.Cuts source before cs after

theorem Span.Covers.stop_le {s : Span} {source : String} {cs : List Char} (h : s.Covers source cs) :
    s.stop ≤ source.utf8ByteSize := by
  obtain ⟨before, after, hcuts⟩ := h
  rw [← Listing.byteLength_toList, hcuts.text, hcuts.stop]
  simp

end StackMachine
