import StackMachine.Proofs.Diagnostic.Rendering
import StackMachine.Proofs.Prelude
import StackMachine.Proofs.Text.SingleLine

/-!
# Colour

A terminal reads characters that it shows, and control sequences between them. What it shows of a
diagnostic in colour is the plain text, and every style that is begun is ended before the next one
begins and before the text ends (`colour_only_decorates`).

Only ESC begins a control sequence, so all that has to be known of the texts of a diagnostic is that
none has this character: then the only sequences are those around the segments with a style.
-/

namespace StackMachine

/-! ## What a terminal reads -/

namespace Terminal

/-- A character that is shown, or a control sequence. -/
inductive Item where
  | shown (c : Char)
  | control (parameters : List Char)
deriving DecidableEq

/-- The character of an item that is shown. -/
def Item.shown? : Item → Option Char
  | shown c => some c
  | control _ => none

/-- The parameters of an item that is a control sequence. -/
def Item.control? : Item → Option (List Char)
  | shown _ => none
  | control parameters => some parameters

/-- The control sequence that characters begin with: what stands between the bracket after ESC and
the next `m`, and what comes after that. -/
def sequence? : List Char → Option (List Char × List Char)
  | '\x1b' :: '[' :: cs =>
    match cs.dropWhile (· != 'm') with
    | [] => none
    | _ :: rest => some (cs.takeWhile (· != 'm'), rest)
  | _ => none

variable {cs rest parameters : List Char}

theorem length_lt_of_sequence? (h : sequence? cs = some (parameters, rest)) :
    rest.length < cs.length := by
  unfold sequence? at h
  split at h
  · next more =>
    split at h
    · contradiction
    · next last hlast =>
      obtain ⟨-, rfl⟩ := Prod.mk.inj (Option.some.inj h)
      have hle := (List.dropWhile_sublist (fun c : Char => c != 'm') (l := more)).length_le
      rw [hlast, List.length_cons] at hle
      simp only [List.length_cons]
      omega
  · contradiction

/-- Characters as a terminal reads them. -/
def read : List Char → List Item
  | [] => []
  | c :: cs =>
    match h : sequence? (c :: cs) with
    | some (parameters, rest) =>
      have := Nat.le_of_lt_succ (length_lt_of_sequence? h)
      .control parameters :: read rest
    | none => .shown c :: read cs
termination_by cs => cs.length

/-- A text without its control sequences. -/
def withoutControls (text : String) : String :=
  String.ofList ((read text.toList).filterMap Item.shown?)

/-- The parameters of the control sequences of a text, in order. -/
def controls (text : String) : List (List Char) := (read text.toList).filterMap Item.control?

/-- Control sequences by which every style is ended as soon as it was begun. -/
inductive Closed : List (List Char) → Prop
  | nil : Closed []
  | styled (style : Style) {rest : List (List Char)} (h : Closed rest) :
      Closed (style.parameters.toList :: ['0'] :: rest)

/-! ## Texts without ESC -/

/-- A character other than ESC is shown. -/
theorem read_cons {c : Char} (hc : c ≠ '\x1b') (cs : List Char) :
    read (c :: cs) = .shown c :: read cs := by
  have hnone : sequence? (c :: cs) = none := by
    unfold sequence?
    split
    · next h => exact absurd (List.cons.inj h).1 hc
    · rfl
  rw [read]
  split
  · next h =>
    rw [hnone] at h
    contradiction
  · rfl

theorem read_append (h : '\x1b' ∉ cs) (rest : List Char) :
    read (cs ++ rest) = cs.map .shown ++ read rest := by
  induction cs with
  | nil => rfl
  | cons c cs ih =>
    obtain ⟨hc, hcs⟩ := not_or.1 (mt List.mem_cons.2 h)
    rw [List.cons_append, read_cons (Ne.symm hc), ih hcs, List.map_cons, List.cons_append]

theorem read_controlSequence {parameters : String} (h : 'm' ∉ parameters.toList)
    (rest : List Char) :
    read ((controlSequence parameters).toList ++ rest) =
      .control parameters.toList :: read rest := by
  have hbefore : ∀ c ∈ parameters.toList, (c != 'm') = true :=
    fun c hc => bne_iff_ne.2 fun hm => h (hm ▸ hc)
  have hcut := takeWhile_append_cons hbefore (y := 'm') rfl rest
  have hlist : (controlSequence parameters).toList ++ rest =
      '\x1b' :: '[' :: (parameters.toList ++ 'm' :: rest) := by
    simp [controlSequence]
  have hsome : sequence? ('\x1b' :: '[' :: (parameters.toList ++ 'm' :: rest)) =
      some (parameters.toList, rest) := by
    simp only [sequence?, hcut]
  rw [hlist, read]
  split
  · next h =>
    rw [hsome] at h
    obtain ⟨rfl, rfl⟩ := Prod.mk.inj (Option.some.inj h)
    rfl
  · next h =>
    rw [hsome] at h
    contradiction

/-! ## Segments -/

/-- A segment as a terminal reads it in colour. -/
def items (s : Segment) : List Item :=
  let shown := s.text.toList.map .shown
  match s.style with
  | some style => .control style.parameters.toList :: shown ++ [.control ['0']]
  | none => shown

variable {segments : List Segment}

theorem read_coloured {s : Segment} (h : '\x1b' ∉ s.text.toList) (rest : List Char) :
    read (s.coloured.toList ++ rest) = items s ++ read rest := by
  obtain ⟨style, text⟩ := s
  cases style with
  | none => exact read_append h rest
  | some style =>
    have hstyle : 'm' ∉ style.parameters.toList := by
      cases style <;> decide
    simp only [Segment.coloured, items, String.toList_append, List.append_assoc]
    rw [read_controlSequence hstyle, read_append h, read_controlSequence (by decide)]
    simp

theorem read_segments (h : ∀ s ∈ segments, '\x1b' ∉ s.text.toList) :
    read (segments.flatMap fun s => s.coloured.toList) = segments.flatMap items := by
  induction segments with
  | nil => rw [List.flatMap_nil, List.flatMap_nil, read]
  | cons s segments ih =>
    rw [List.flatMap_cons, read_coloured (h s List.mem_cons_self),
      ih fun t ht => h t (List.mem_cons_of_mem s ht), List.flatMap_cons]

theorem shown_items (s : Segment) : (items s).filterMap Item.shown? = s.text.toList := by
  have hshown (cs : List Char) : (cs.map Item.shown).filterMap Item.shown? = cs := by
    rw [List.filterMap_map]
    exact List.filterMap_some
  obtain ⟨style, text⟩ := s
  cases style with
  | none => exact hshown _
  | some style =>
    have hend : [Item.control ['0']].filterMap Item.shown? = [] := rfl
    simp only [items, List.cons_append]
    rw [List.filterMap_cons_none rfl, List.filterMap_append, hshown, hend, List.append_nil]

theorem closed_items (segments : List Segment) :
    Closed ((segments.flatMap items).filterMap Item.control?) := by
  have hshown (cs : List Char) : (cs.map Item.shown).filterMap Item.control? = [] := by
    rw [List.filterMap_map, List.filterMap_eq_nil_iff]
    exact fun _ _ => rfl
  induction segments with
  | nil => exact .nil
  | cons s segments ih =>
    rw [List.flatMap_cons, List.filterMap_append]
    obtain ⟨style, text⟩ := s
    cases style with
    | none => simpa [items, hshown] using ih
    | some style => simpa [items, hshown, Item.control?] using Closed.styled style ih

end Terminal

/-! ## Diagnostics -/

namespace Listing

variable {c : Char}

/-- The lines of a text have no characters that it does not have. -/
theorem mem_of_mem_splitLines {cs line : List Char} (hline : line ∈ splitLines cs)
    (hc : c ∈ line) : c ∈ cs := by
  induction cs generalizing line with
  | nil =>
    obtain rfl := List.mem_singleton.1 hline
    exact hc
  | cons d cs ih =>
    rw [splitLines] at hline
    split at hline
    · rcases List.mem_cons.1 hline with rfl | hline
      · contradiction
      · exact List.mem_cons_of_mem d (ih hline hc)
    · split at hline
      · obtain rfl := List.mem_singleton.1 hline
        exact List.mem_cons.2 (.inl (List.mem_singleton.1 hc))
      · next first lines hlines =>
        rw [hlines] at ih
        rcases List.mem_cons.1 hline with rfl | hline
        · rcases List.mem_cons.1 hc with rfl | hc
          · exact List.mem_cons_self
          · exact List.mem_cons_of_mem d (ih List.mem_cons_self hc)
        · exact List.mem_cons_of_mem d (ih (List.mem_cons_of_mem first hline) hc)

theorem mem_of_mem_lineText {source : String} {number : Nat}
    (hc : c ∈ (lineText source number).toList) : c ∈ source.toList := by
  unfold lineText at hc
  split at hc
  · contradiction
  · split at hc
    · next line hline =>
      rw [String.toList_ofList, dropReturn] at hc
      refine mem_of_mem_splitLines (List.mem_of_getElem? hline) ?_
      split at hc
      · exact List.mem_of_mem_dropLast hc
      · exact hc
    · contradiction

end Listing

namespace Diagnostic

/-- The texts of a diagnostic. -/
def texts (d : Diagnostic) : List String :=
  d.message :: d.code.toList ++ d.marks.map Mark.message ++ d.notes ++ d.suggestion.toList ++
    d.source.toList

/-- A text without ESC. -/
def Clean (text : String) : Prop := '\x1b' ∉ text.toList

instance (text : String) : Decidable (Clean text) :=
  inferInstanceAs (Decidable ('\x1b' ∉ text.toList))

/-- Segments whose texts have no ESC. -/
def CleanSegments (segments : List Segment) : Prop := ∀ s ∈ segments, Clean s.text

variable {d : Diagnostic} {s t source : String} {mark : Mark}

/-! ### Texts -/

@[simp] theorem clean_append_iff : Clean (s ++ t) ↔ Clean s ∧ Clean t := by
  rw [Clean, String.toList_append, List.mem_append, not_or]
  rfl

@[simp] theorem clean_decimal (n : Nat) : Clean (Text.decimal n) := by
  rw [Clean, Text.decimal, String.toList_ofList]
  exact Text.notMem_toDigits (fun _ => Nat.digitChar_ne '\x1b' rfl) (by decide) n

theorem clean_replicate {c : Char} (hc : c ≠ '\x1b') (n : Nat) :
    Clean (String.ofList (List.replicate n c)) := by
  rw [Clean, String.toList_ofList]
  exact fun h => hc (List.eq_of_mem_replicate h).symm

@[simp] theorem clean_spaces (n : Nat) : Clean (spaces n) := clean_replicate (by decide) n

theorem Clean.lineText (h : Clean source) (number : Nat) :
    Clean (Listing.lineText source number) := mt Listing.mem_of_mem_lineText h

theorem clean_name (severity : Severity) : Clean severity.name := by
  cases severity <;> decide

/-! ### Segments -/

theorem cleanSegments_nil : CleanSegments [] := List.forall_mem_nil _

theorem cleanSegments_cons_iff {first : Segment} {segments : List Segment} :
    CleanSegments (first :: segments) ↔ Clean first.text ∧ CleanSegments segments :=
  List.forall_mem_cons

theorem cleanSegments_append_iff {first second : List Segment} :
    CleanSegments (first ++ second) ↔ CleanSegments first ∧ CleanSegments second :=
  List.forall_mem_append

theorem cleanSegments_flatMap {α : Type} {xs : List α} {f : α → List Segment}
    (h : ∀ x ∈ xs, CleanSegments (f x)) : CleanSegments (xs.flatMap f) := by
  intro segment hsegment
  obtain ⟨x, hx, hsegment⟩ := List.mem_flatMap.1 hsegment
  exact h x hx segment hsegment

theorem cleanSegments_heading (hmessage : Clean d.message) (hcode : ∀ c ∈ d.code, Clean c) :
    CleanSegments d.heading := by
  have hseverity := clean_name d.severity
  cases hd : d.code with
  | none => simp +decide [heading, cleanSegments_cons_iff, cleanSegments_nil, bare, styled, *]
  | some code =>
    have := hcode code hd
    simp +decide [heading, cleanSegments_cons_iff, cleanSegments_nil, bare, styled, *]

theorem cleanSegments_remark (h : Clean t) : CleanSegments (remark t) := by
  simp +decide [remark, cleanSegments_cons_iff, cleanSegments_nil, bare, styled, h]

theorem cleanSegments_excerpt (hsource : Clean source) (hmark : Clean mark.message) :
    CleanSegments (excerpt source mark) := by
  have hcarets (n : Nat) : Clean (String.ofList (List.replicate n '^')) :=
    clean_replicate (by decide) n
  have hline := hsource.lineText
  by_cases hmessage : mark.message = "" <;>
    simp +decide [excerpt, cleanSegments_cons_iff, cleanSegments_nil, bare, styled, *]

theorem cleanSegments_secondary (hmark : Clean mark.message) :
    CleanSegments (d.secondary mark) := by
  unfold secondary
  split
  · exact cleanSegments_nil
  · split <;> exact cleanSegments_remark (by simp +decide [hmark])

theorem cleanSegments_primaryExcerpt (hmarks : ∀ mark ∈ d.marks, Clean mark.message)
    (hsource : ∀ source ∈ d.source, Clean source) : CleanSegments d.primaryExcerpt := by
  unfold primaryExcerpt
  split
  · next mark source hmark hd =>
    exact cleanSegments_excerpt (hsource source hd) (hmarks mark (List.mem_of_find?_eq_some hmark))
  · exact cleanSegments_nil

/-- **No segment has an ESC** that a text of the diagnostic does not have. -/
theorem cleanSegments_segments (hd : ∀ text ∈ d.texts, Clean text) : CleanSegments d.segments := by
  simp only [texts, List.mem_append, List.mem_cons, List.mem_map, Option.mem_toList, or_assoc] at hd
  have hmarks (mark) (h : mark ∈ d.marks) : Clean mark.message :=
    hd _ (.inr (.inr (.inl ⟨mark, h, rfl⟩)))
  simp only [segments, cleanSegments_append_iff, and_assoc]
  refine ⟨cleanSegments_heading (hd _ (.inl rfl)) fun c h => hd c (.inr (.inl h)),
    cleanSegments_primaryExcerpt hmarks fun source h =>
      hd source (.inr (.inr (.inr (.inr (.inr h))))),
    cleanSegments_flatMap fun mark h =>
      cleanSegments_secondary (hmarks mark (List.mem_filter.1 h).1),
    cleanSegments_flatMap fun note h => cleanSegments_remark ?_, ?_, ?_⟩
  · exact clean_append_iff.2 ⟨by decide, hd note (.inr (.inr (.inr (.inl h))))⟩
  · split
    · next s hs =>
      exact cleanSegments_remark
        (clean_append_iff.2 ⟨by decide, hd s (.inr (.inr (.inr (.inr (.inl hs)))))⟩)
    · exact cleanSegments_nil
  · split
    · exact cleanSegments_remark (by decide)
    · exact cleanSegments_nil

theorem toList_coloured (d : Diagnostic) :
    d.coloured.toList = d.segments.flatMap fun s => s.coloured.toList := by
  rw [coloured, String.toList_join, List.flatMap_map]

theorem toList_plain (d : Diagnostic) :
    d.plain.toList = d.segments.flatMap fun s => s.text.toList := by
  rw [plain, String.toList_join, List.flatMap_map]

/-- **Colour only decorates.** A renderer writes in colour or plain text. When no text of a
diagnostic has an ESC, what stands in colour between the control sequences is the plain text; the
control sequences are pairs of one that begins a style and one that ends it, so that no style is
begun while another one lasts and none lasts at the end; and the plain text has no control
sequence. -/
theorem colour_only_decorates (hd : ∀ text ∈ d.texts, '\x1b' ∉ text.toList) :
    (Renderer.mk true).render d = d.coloured ∧ (Renderer.mk false).render d = d.plain ∧
      Terminal.withoutControls d.coloured = d.plain ∧
      Terminal.Closed (Terminal.controls d.coloured) ∧
      '\x1b' ∉ d.plain.toList := by
  have hsegments := cleanSegments_segments hd
  have hread := Terminal.read_segments hsegments
  rw [← toList_coloured] at hread
  refine ⟨Renderer.render_coloured d, Renderer.render_plain d, ?_, ?_, ?_⟩
  · rw [Terminal.withoutControls, hread, List.filterMap_flatMap, ← String.toList_inj,
      String.toList_ofList, toList_plain]
    exact congrArg (d.segments.flatMap ·) (funext Terminal.shown_items)
  · rw [Terminal.controls, hread]
    exact Terminal.closed_items d.segments
  · rw [toList_plain]
    intro h
    obtain ⟨s, hs, hesc⟩ := List.mem_flatMap.1 h
    exact hsegments s hs hesc

/-- A diagnostic with every part. Its source has a control sequence without the ESC, which is shown
as it stands. -/
theorem colour_only_decorates_all_parts :
    let d : Diagnostic :=
      { severity := .warning
        code := some "ZOE-A003"
        message := "name 'x' is in use"
        marks := [{ span := ⟨9, 10⟩, message := "again here", isPrimary := true },
          { span := ⟨4, 5⟩, message := "first here", isPrimary := false }]
        notes := ["in the same scope"]
        suggestion := some "use [0m another name"
        source := some "LET x\nLET x [31m\n" }
    (∀ text ∈ d.texts, '\x1b' ∉ text.toList) ∧
      (Renderer.mk true).render d = d.coloured ∧ (Renderer.mk false).render d = d.plain ∧
      d.coloured ≠ d.plain ∧ Terminal.withoutControls d.coloured = d.plain ∧
      Terminal.Closed (Terminal.controls d.coloured) := by
  intro d
  have hd : ∀ text ∈ d.texts, '\x1b' ∉ text.toList := by decide
  obtain ⟨hcoloured, hplainly, hplain, hclosed, hesc⟩ := d.colour_only_decorates hd
  refine ⟨hd, hcoloured, hplainly, fun hsame => hesc ?_, hplain, hclosed⟩
  have hbegin : d.coloured.toList.head? = some '\x1b' := by decide +kernel
  rw [← hsame]
  exact List.mem_of_mem_head? hbegin

end Diagnostic
end StackMachine
