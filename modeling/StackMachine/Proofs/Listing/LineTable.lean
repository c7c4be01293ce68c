import StackMachine.Listing.LineTable
import StackMachine.Proofs.Listing.Places
import StackMachine.Proofs.Text.Utf8

/-!
# Tables of lines

The table of a text finds the line that counting newlines finds, for every offset, in the middle of
a character or past the end as well, and gives back the pieces that the text has between newlines
(`LineTable.inverts_splitting`). So it shows the places and the lines that reading the text from its
beginning shows (`LineTable.lineAndColumn_ofText`, `LineTable.lineText_ofText`).
-/

namespace StackMachine

/-! ## Halving -/

section

variable {α : Type} {p : α → Bool} {xs : Array α} {k : Nat}

/-- Halving keeps the partition point past `base` members and within `size` of them. -/
theorem partitionPointFrom_eq (htest : ∀ i, (h : i < xs.size) → (p xs[i] ↔ i < k)) {base size : Nat}
    (hpos : 0 < size) (hsize : base + size ≤ xs.size) (hbase : base ≤ k) (hk : k ≤ base + size) :
    partitionPointFrom p xs base size hpos hsize = k := by
  fun_induction partitionPointFrom p xs base size hpos hsize with
  | case1 base size hpos hsize hmore hmiddle ih =>
    have hlt := (htest _ _).1 hmiddle
    exact ih (by omega) (by omega)
  | case2 base size hpos hsize hmore hmiddle ih =>
    have hle := mt (htest _ _).2 hmiddle
    exact ih hbase (by omega)
  | case3 base size hpos hsize hlast hbefore =>
    have hlt := (htest _ _).1 hbefore
    omega
  | case4 base size hpos hsize hlast hbefore =>
    have hle := mt (htest _ _).2 hbefore
    omega

/-- **Halving finds the partition point.** -/
theorem partitionPoint_eq (hk : k ≤ xs.size)
    (htest : ∀ i, (h : i < xs.size) → (p xs[i] ↔ i < k)) : partitionPoint p xs = k := by
  unfold partitionPoint
  split
  · exact partitionPointFrom_eq htest _ _ (Nat.zero_le k) (by omega)
  · omega

end

namespace LineTable

variable {t : LineTable} {n offset start : Nat}

theorem getElem_starts_lt {i j : Nat} (hij : i < j) (hj : j < t.starts.size) :
    t.starts[i] < t.starts[j] :=
  List.pairwise_iff_getElem.1 t.ascending i j (by simp; omega) (by simpa) hij

/-- **The line of an offset** is the last one that does not begin after it. -/
theorem lineAndColumn_eq (hstart : t.starts[n]? = some start) (hle : start ≤ offset)
    (hnext : ∀ next, t.starts[n + 1]? = some next → offset < next) :
    t.lineAndColumn offset = (n + 1, offset - start + 1) := by
  obtain ⟨hn, rfl⟩ := Array.getElem?_eq_some_iff.1 hstart
  have hline : partitionPoint (· ≤ offset) t.starts = n + 1 := by
    refine partitionPoint_eq hn fun i hi => ?_
    rw [decide_eq_true_iff]
    constructor
    · intro hi_le
      by_contra hlt
      have hn' : n + 1 < t.starts.size := by omega
      have hoffset := hnext _ (Array.getElem?_eq_getElem hn')
      rcases Nat.eq_or_lt_of_le (Nat.not_lt.1 hlt) with rfl | hlt
      · omega
      · -- A later line begins after the next one, and that one is after the offset.
        have hlater := getElem_starts_lt hlt hi
        omega
    · intro hi_lt
      rcases Nat.eq_or_lt_of_le (Nat.le_of_lt_succ hi_lt) with rfl | hi_lt
      · exact hle
      · have hearlier := getElem_starts_lt hi_lt hn
        omega
  simp only [lineAndColumn, hline, Nat.le_add_left, Nat.max_eq_left, Nat.add_sub_cancel]

end LineTable

namespace Listing

variable {cs line : List Char} {lines : List (List Char)} {n k offset : Nat} {source : String}

/-! ## Where lines begin -/

/-- The offset at which a line begins: the lines before it come first, each with its newline. -/
def lineStart (lines : List (List Char)) (n : Nat) : Nat :=
  ((lines.take n).map (byteLength · + 1)).sum

@[simp]
theorem lineStart_zero (lines : List (List Char)) : lineStart lines 0 = 0 := rfl

@[simp]
theorem lineStart_cons_succ (line : List Char) (lines : List (List Char)) (n : Nat) :
    lineStart (line :: lines) (n + 1) = byteLength line + 1 + lineStart lines n := by
  simp [lineStart]

/-- A line ends where the newline before the next one stands. -/
theorem lineStart_succ (h : lines[n]? = some line) :
    lineStart lines (n + 1) = lineStart lines n + byteLength line + 1 := by
  simp [lineStart, List.take_add_one, h, Nat.add_assoc]

theorem newlines_append (offset : Nat) (before after : List Char) :
    newlines offset (before ++ after) =
      newlines offset before ++ newlines (offset + byteLength before) after := by
  induction before generalizing offset with
  | nil => rfl
  | cons c before ih =>
    simp only [List.cons_append, newlines, ih, byteLength_cons, Nat.add_assoc]
    split <;> simp

theorem newlines_of_notMem (hline : '\n' ∉ line) (offset : Nat) : newlines offset line = [] := by
  induction line generalizing offset with
  | nil => rfl
  | cons c line ih =>
    rw [List.mem_cons, not_or] at hline
    rw [newlines, if_neg (Ne.symm hline.1), ih hline.2]

/-- Lines begin at the beginning and after each newline. -/
theorem starts_eq_map_lineStart (offset : Nat) (cs : List Char) :
    offset :: (newlines offset cs).map (· + 1) =
      (List.range (splitLines cs).length).map (offset + lineStart (splitLines cs) ·) := by
  induction cs using induction_on_lines generalizing offset with
  | last line hline => simp [newlines_of_notMem hline, splitLines_of_notMem hline]
  | more line rest hline ih =>
    rw [newlines_append, newlines_of_notMem hline, List.nil_append, newlines, if_pos rfl,
      List.map_cons, splitLines_append_newline hline, List.length_cons, List.range_succ_eq_map,
      List.map_cons, List.map_map, show Char.utf8Size '\n' = 1 from rfl, ih]
    simp [Function.comp_def, Nat.add_assoc]

/-- The pieces between newlines. -/
theorem splitLines_eq_splitOn (cs : List Char) : splitLines cs = cs.splitOn '\n' := by
  induction cs with
  | nil => rfl
  | cons c cs ih =>
    rw [splitLines, List.splitOn, List.splitOnP_cons_eq_if_modifyHead, ← List.splitOn, ← ih]
    by_cases hc : c = '\n'
    · simp [hc]
    · obtain ⟨line, lines, hlines⟩ := List.exists_cons_of_ne_nil (splitLines_ne_nil cs)
      simp [hc, hlines]

/-- A line stands in the text where it begins. -/
theorem exists_eq_append_of_splitLines (h : (splitLines cs)[n]? = some line) :
    ∃ before after, cs = before ++ (line ++ after) ∧
      byteLength before = lineStart (splitLines cs) n ∧
      (n + 1 = (splitLines cs).length → after = []) := by
  induction cs using induction_on_lines generalizing n with
  | last only honly =>
    rw [splitLines_of_notMem honly] at h ⊢
    obtain ⟨rfl, rfl⟩ : n = 0 ∧ only = line := by
      cases n with
      | zero => exact ⟨rfl, Option.some.inj h⟩
      | succ n => contradiction
    exact ⟨[], [], by simp, rfl, fun _ => rfl⟩
  | more first rest hfirst ih =>
    rw [splitLines_append_newline hfirst] at h ⊢
    cases n with
    | zero =>
      obtain rfl := Option.some.inj h
      refine ⟨[], '\n' :: rest, rfl, rfl, fun hlast => ?_⟩
      exact absurd (Nat.succ.inj hlast).symm
        (mt List.length_eq_zero_iff.1 (splitLines_ne_nil rest))
    | succ n =>
      obtain ⟨before, after, rfl, hbefore, hlast⟩ := ih h
      refine ⟨first ++ '\n' :: before, after, by simp, ?_, fun h => hlast (Nat.succ.inj h)⟩
      simp [hbefore, show Char.utf8Size '\n' = 1 from rfl]
      omega

/-! ## The line of an offset -/

/-- An offset is on the line with an index, after so many bytes of it. A line has its newline, and
the last line has no end. -/
structure OnLine (lines : List (List Char)) (offset n k : Nat) : Prop where
  lt : n < lines.length
  eq : offset = lineStart lines n + k
  next : n + 1 < lines.length → offset < lineStart lines (n + 1)

theorem OnLine.later (h : OnLine lines offset n k) (line : List Char) :
    OnLine (line :: lines) (byteLength line + 1 + offset) (n + 1) k := by
  refine ⟨Nat.succ_lt_succ h.lt, ?_, fun hn => ?_⟩
  · rw [lineStart_cons_succ, h.eq, ← Nat.add_assoc]
  · rw [lineStart_cons_succ]
    exact Nat.add_lt_add_left (h.next (Nat.lt_of_succ_lt_succ hn)) _

theorem OnLine.exists_later (h : OnLine (line :: lines) offset (n + 1) k) :
    ∃ offset', offset = byteLength line + 1 + offset' ∧ OnLine lines offset' n k := by
  refine ⟨lineStart lines n + k, ?_, Nat.lt_of_succ_lt_succ h.lt, rfl, fun hn => ?_⟩
  · rw [h.eq, lineStart_cons_succ, Nat.add_assoc]
  · have hnext := h.next (Nat.succ_lt_succ hn)
    rw [h.eq, lineStart_cons_succ, lineStart_cons_succ] at hnext
    omega

theorem OnLine.eq_of_zero (h : OnLine lines offset 0 k) : offset = k := by
  rw [h.eq, lineStart_zero, Nat.zero_add]

/-- Where the line of an offset is not the last one, its newline is not before the offset. -/
theorem OnLine.le_byteLength (h : OnLine (line :: lines) offset 0 k) (hlines : lines ≠ []) :
    offset ≤ byteLength line := by
  have hlt := h.next (Nat.succ_lt_succ (List.length_pos_iff.2 hlines))
  rw [lineStart_cons_succ, lineStart_zero] at hlt
  omega

/-- Every offset is on a line. -/
theorem exists_onLine (hlines : lines ≠ []) (offset : Nat) : ∃ n k, OnLine lines offset n k := by
  induction lines generalizing offset with
  | nil => contradiction
  | cons line lines ih =>
    by_cases hfirst : lines = [] ∨ offset ≤ byteLength line
    · refine ⟨0, offset, Nat.succ_pos _, by simp, fun hnext => ?_⟩
      rw [lineStart_cons_succ, lineStart_zero]
      rcases hfirst with rfl | hfirst
      · contradiction
      · omega
    · rw [not_or] at hfirst
      obtain ⟨n, k, h⟩ := ih hfirst.1 (offset - (byteLength line + 1))
      have hlater := h.later line
      rw [Nat.add_sub_cancel' (by omega)] at hlater
      exact ⟨n + 1, k, hlater⟩

/-- The bytes of a line with its newline are all on it. -/
theorem onLine_of_le (h : lines[n]? = some line) (hk : k ≤ byteLength line) :
    OnLine lines (lineStart lines n + k) n k := by
  obtain ⟨hn, -⟩ := List.getElem?_eq_some_iff.1 h
  refine ⟨hn, rfl, fun _ => ?_⟩
  rw [lineStart_succ h]
  omega

/-- Reading the lines one after another finds the line of an offset. -/
theorem OnLine.locate_eq (h : OnLine lines offset n k) (number : Nat) :
    locate number offset lines = (number + n, k + 1) := by
  induction lines generalizing offset n number with
  | nil => exact absurd h.lt (Nat.not_lt_zero n)
  | cons line lines ih =>
    cases n with
    | zero =>
      obtain rfl := h.eq_of_zero
      cases lines with
      | nil => rfl
      | cons next lines => exact if_pos (h.le_byteLength (List.cons_ne_nil next lines))
    | succ n =>
      obtain ⟨offset', rfl, hrest⟩ := h.exists_later
      obtain ⟨next, more, rfl⟩ := List.exists_cons_of_length_pos (Nat.zero_lt_of_lt hrest.lt)
      rw [locate, if_neg (by omega), Nat.add_sub_cancel_left, ih hrest]
      simp only [Nat.add_assoc, Nat.add_comm 1]

/-! ## Newline bytes -/

/-- The newline bytes of a text at positions before an offset. -/
def newlineBytesBefore (source : String) (offset : Nat) : Nat :=
  (source.toUTF8.data.toList.take offset).count 10

theorem length_flatMap_utf8EncodeChar (cs : List Char) :
    (cs.flatMap String.utf8EncodeChar).length = byteLength cs := by
  induction cs with
  | nil => rfl
  | cons c cs ih => simp [ih]

theorem count_newline_of_notMem (hline : '\n' ∉ line) (offset : Nat) :
    ((line.flatMap String.utf8EncodeChar).take offset).count 10 = 0 := by
  refine List.count_eq_zero_of_not_mem fun hmem => hline ?_
  obtain ⟨c, hc, hbyte⟩ := List.mem_flatMap.1 (List.mem_of_mem_take hmem)
  exact (mem_utf8EncodeChar_iff (x := '\n') (by decide)).1 hbyte ▸ hc

theorem OnLine.count_newline_eq (h : OnLine (splitLines cs) offset n k) :
    ((cs.flatMap String.utf8EncodeChar).take offset).count 10 = n := by
  induction cs using induction_on_lines generalizing offset n with
  | last line hline =>
    rw [splitLines_of_notMem hline] at h
    rw [count_newline_of_notMem hline]
    exact (Nat.lt_one_iff.1 h.lt).symm
  | more line rest hline ih =>
    rw [splitLines_append_newline hline] at h
    rw [List.flatMap_append, List.flatMap_cons, utf8EncodeChar_of_ascii (by decide)]
    cases n with
    | zero =>
      have hle := h.le_byteLength (splitLines_ne_nil rest)
      rw [List.take_append_of_le_length (by rwa [length_flatMap_utf8EncodeChar]),
        count_newline_of_notMem hline]
    | succ n =>
      obtain ⟨offset', rfl, hrest⟩ := h.exists_later
      have hline' := count_newline_of_notMem hline (byteLength line)
      rw [← length_flatMap_utf8EncodeChar, List.take_length] at hline'
      rw [← length_flatMap_utf8EncodeChar, Nat.add_assoc, List.take_length_add_append,
        List.count_append, hline', Nat.add_comm 1, List.singleton_append, List.take_succ_cons,
        List.count_cons, ih hrest]
      simp

/-! ## Cutting a text -/

theorem cutBytes?_append (before after : List Char) :
    cutBytes? (byteLength before) (before ++ after) = some (before, after) := by
  induction before with
  | nil => simp [cutBytes?]
  | cons c before ih =>
    obtain ⟨m, hm⟩ := Nat.exists_eq_succ_of_ne_zero (Nat.ne_of_gt c.utf8Size_pos)
    rw [List.cons_append, byteLength_cons, hm, Nat.succ_add, cutBytes?, if_pos (by omega)]
    have hrest : m + byteLength before + 1 - c.utf8Size = byteLength before := by omega
    rw [hrest, ih]
    rfl

/-- A carriage return is dropped if it stands at the end, and nothing else is. -/
theorem exists_eq_dropReturn_append (line : List Char) :
    ∃ ending, line = dropReturn line ++ ending ∧
      (ending = ['\r'] ∨ ending = [] ∧ line.getLast? ≠ some '\r') := by
  unfold dropReturn
  split
  · next hlast => exact ⟨['\r'], (List.dropLast_append_getLast? _ hlast).symm, .inl rfl⟩
  · next hlast => exact ⟨[], (List.append_nil line).symm, .inr ⟨rfl, hlast⟩⟩

end Listing

/-- The text that a span cuts out. -/
theorem Span.Cuts.slice?_eq {s : Span} {source : String} {before cs after : List Char}
    (h : s.Cuts source before cs after) : s.slice? source = some (String.ofList cs) := by
  have hle : s.start ≤ s.stop := by
    rw [h.start, h.stop]
    exact Nat.le_add_right _ _
  have hlength : s.stop - s.start = Listing.byteLength cs := by
    rw [h.start, h.stop, Nat.add_sub_cancel_left]
  rw [Span.slice?, if_pos hle, hlength, h.start, h.text]
  simp only [Listing.cutBytes?_append, Option.bind_eq_bind, Option.bind_some, Option.pure_def]

/-! ## The table of a text -/

namespace LineTable

open Listing (OnLine byteLength exists_onLine lineStart newlineBytesBefore onLine_of_le splitLines
  splitLines_ne_nil)

variable {source : String} {offset n k : Nat} {line : List Char}

theorem toList_starts_ofText (source : String) :
    (ofText source).starts.toList = (List.range (splitLines source.toList).length).map
      (lineStart (splitLines source.toList)) := by
  have hstarts := Listing.starts_eq_map_lineStart 0 source.toList
  simpa [ofText] using hstarts

theorem getElem?_starts_ofText (source : String) (n : Nat) :
    (ofText source).starts[n]? = if n < (splitLines source.toList).length
      then some (lineStart (splitLines source.toList) n) else none := by
  rw [← Array.getElem?_toList, toList_starts_ofText, List.getElem?_map]
  split
  · next hn => rw [List.getElem?_range hn, Option.map_some]
  · next hn => rw [List.getElem?_eq_none (by simpa using hn), Option.map_none]

theorem lineAndColumn_of_onLine (h : OnLine (splitLines source.toList) offset n k) :
    (ofText source).lineAndColumn offset = (n + 1, k + 1) := by
  have hstart := getElem?_starts_ofText source n
  rw [if_pos h.lt] at hstart
  rw [lineAndColumn_eq hstart, h.eq, Nat.add_sub_cancel_left]
  · rw [h.eq]
    exact Nat.le_add_right _ _
  · intro next hnext
    rw [getElem?_starts_ofText] at hnext
    split at hnext
    · next hlt => exact Option.some.inj hnext ▸ h.next hlt
    · contradiction

/-- The table shows the same place as reading the text from its beginning. -/
theorem lineAndColumn_ofText (source : String) (offset : Nat) :
    (ofText source).lineAndColumn offset = Listing.lineAndColumn source offset := by
  obtain ⟨n, k, h⟩ := exists_onLine (splitLines_ne_nil source.toList) offset
  rw [lineAndColumn_of_onLine h, Listing.lineAndColumn, h.locate_eq, Nat.add_comm 1]

/-- The range of a line cuts the line out of the text. -/
theorem exists_cuts_of_splitLines (h : (splitLines source.toList)[n]? = some line) :
    ∃ s before after, (ofText source).lineRange? (n + 1) = some s ∧
      s.Cuts source before line after := by
  obtain ⟨hn, -⟩ := List.getElem?_eq_some_iff.1 h
  obtain ⟨before, after, htext, hbefore, hlast⟩ := Listing.exists_eq_append_of_splitLines h
  refine ⟨⟨byteLength before, byteLength before + byteLength line⟩, before, after, ?_,
    htext, rfl, rfl⟩
  rw [lineRange?, getElem?_starts_ofText source n, if_pos hn, Option.map_some,
    getElem?_starts_ofText source (n + 1), hbefore]
  by_cases hnext : n + 1 < (splitLines source.toList).length
  · rw [if_pos hnext, Listing.lineStart_succ h]
    rfl
  · have hstop : (ofText source).stop =
        lineStart (splitLines source.toList) n + byteLength line := by
      have hbytes := Listing.byteLength_toList source
      rw [htext, hlast (by omega), List.append_nil, Listing.byteLength_append, hbefore] at hbytes
      exact hbytes.symm
    rw [if_neg hnext, hstop]

/-- The table shows the same line as reading the text from its beginning. -/
theorem lineText_ofText (source : String) (number : Nat) :
    (ofText source).lineText source number = Listing.lineText source number := by
  cases number with
  | zero => rfl
  | succ n =>
    rw [lineText, Listing.lineText]
    cases hline : (splitLines source.toList)[n]? with
    | none =>
      have hn := List.getElem?_eq_none_iff.1 hline
      rw [lineRange?, getElem?_starts_ofText source n, if_neg (by omega)]
      rfl
    | some line =>
      obtain ⟨s, before, after, hrange, hcuts⟩ := exists_cuts_of_splitLines hline
      rw [hrange, Option.bind_some, hcuts.slice?_eq]
      simp

/-- **The table of a text inverts the splitting into lines.**

* Every offset, inside the text or past its end, has the line that comes after the newline bytes
  before the offset, and a column, counted from one, such that the offset is the start of the line
  and the column less one. So the column of an offset is at most one more than the offset.
* The line with a number is that piece of the text split at newlines, without the carriage return
  at its end if it has one, and all its bytes have their places there, as has its end. There is no
  text under any other number. -/
theorem inverts_splitting (source : String) :
    let table := ofText source
    let lines := source.toList.splitOn '\n'
    (∀ offset, ∃ line column, table.lineAndColumn offset = (line, column) ∧
      line = 1 + newlineBytesBefore source offset ∧ line ≤ lines.length ∧ 1 ≤ column ∧
      lineStart lines (line - 1) + column - 1 = offset) ∧
    (∀ n line, lines[n]? = some line →
      (∀ k ≤ byteLength line, table.lineAndColumn (lineStart lines n + k) = (n + 1, k + 1)) ∧
      ∃ text ending, line = text ++ ending ∧
        table.lineText source (n + 1) = String.ofList text ∧
        (ending = ['\r'] ∨ ending = [] ∧ line.getLast? ≠ some '\r')) ∧
    ∀ number, number = 0 ∨ lines.length < number → table.lineText source number = "" := by
  intro table lines
  have hlines : lines = splitLines source.toList :=
    (Listing.splitLines_eq_splitOn source.toList).symm
  rw [hlines]
  refine ⟨fun offset => ?_, fun n line hline => ⟨fun k hk => ?_, ?_⟩, fun number hnumber => ?_⟩
  · obtain ⟨n, k, h⟩ := exists_onLine (splitLines_ne_nil source.toList) offset
    refine ⟨n + 1, k + 1, lineAndColumn_of_onLine h, ?_, h.lt, Nat.le_add_left 1 k, h.eq.symm⟩
    rw [newlineBytesBefore, toUTF8_eq_flatMap, h.count_newline_eq, Nat.add_comm]
  · exact lineAndColumn_of_onLine (onLine_of_le hline hk)
  · obtain ⟨ending, heq, hending⟩ := Listing.exists_eq_dropReturn_append line
    refine ⟨Listing.dropReturn line, ending, heq, ?_, hending⟩
    rw [lineText_ofText, Listing.lineText, hline]
  · rw [lineText_ofText]
    cases number with
    | zero => rfl
    | succ n => rw [Listing.lineText, List.getElem?_eq_none (by omega)]

/-- Two lines that end with carriage returns, one of which has nothing else, and a last line of more
bytes than characters. The third offset is in the middle of a character, the last one far past the
end. -/
theorem inverts_splitting_of_three_lines :
    let source := "\r\nPOP\r\r\n日x"
    let lines := source.toList.splitOn '\n'
    let table := ofText source
    lines = [['\r'], "POP\r\r".toList, ['日', 'x']] ∧
    [0, 1, 9, 400].map table.lineAndColumn = [(1, 1), (1, 2), (3, 2), (3, 393)] ∧
    [0, 1, 2, 3, 4].map (table.lineText source) = ["", "", "POP\r", "日x", ""] ∧
    (∃ column, table.lineAndColumn 9 = (1 + newlineBytesBefore source 9, column)) ∧
    table.lineAndColumn (lineStart lines 1 + 5) = (2, 6) ∧
    table.lineText source 4 = "" := by
  intro source lines table
  obtain ⟨hplaces, hlines, hnone⟩ := inverts_splitting source
  obtain ⟨line, column, hplace, rfl, -⟩ := hplaces 9
  have hsecond : lines[1]? = some "POP\r\r".toList := by decide +kernel
  exact ⟨by decide +kernel, by decide +kernel, by decide +kernel, ⟨column, hplace⟩,
    (hlines 1 _ hsecond).1 5 (by decide), hnone 4 (.inr (by decide +kernel))⟩

end LineTable
end StackMachine
