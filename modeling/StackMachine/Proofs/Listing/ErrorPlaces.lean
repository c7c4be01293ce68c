import StackMachine.Diagnostic.Display
import StackMachine.Diagnostic.Errors
import StackMachine.Proofs.Listing.Undefined

/-!
# Places of listing errors

Every listing error points at text of one line of the listing, so the line can be shown with a
caret under it. The caret stands as many columns from the left as there are bytes before the text on
its line: within the line as long as that is counted in bytes too, and under the first character of
the text where one byte is one character (`listing_error_points_at_text`).
-/

namespace StackMachine

/-! ## Text that is pointed at -/

/-- A span points at a slice of a text, which is not empty and on one line. -/
structure Span.PointsAt (s : Span) (source : String) (before slice : List Char) : Prop where
  cuts : ∃ after, s.Cuts source before slice after
  start_lt_stop : s.start < s.stop
  stop_le : s.stop ≤ source.utf8ByteSize
  oneLine : '\n' ∉ slice

namespace Listing

variable {source : String} {before slice after : List Char} {c : Char} {s : Span} {r t : Reader}
  {lexemes : List Lexeme}

theorem pointsAt_of_cuts (h : s.Cuts source before slice after) (hne : slice ≠ [])
    (hnewline : '\n' ∉ slice) : s.PointsAt source before slice := by
  refine ⟨⟨after, h⟩, ?_, Span.Covers.stop_le ⟨before, after, h⟩, hnewline⟩
  have hpos := byteLength_pos hne
  rw [h.start, h.stop]
  omega

/-- No token begins with a blank. -/
theorem isBlank_head_of_spelledBy {u : Token} (h : u.SpelledBy slice) :
    ∀ c ∈ slice.head?, isBlank c = false := by
  have hunsigned {cs : List Char} (hcs : IsUnsigned cs) : ∀ c ∈ cs.head?, isBlank c = false := by
    obtain ⟨d, more, rfl, hd⟩ := hcs.exists_cons
    rintro _ ⟨⟩
    exact isBlank_of_test hd rfl rfl rfl
  cases h with
  | label hname | word hname =>
    obtain ⟨hc, -⟩ := hname
    rintro _ ⟨⟩
    exact isBlank_of_test hc rfl rfl rfl
  | number hcs =>
    cases hcs with
    | unsigned hcs => exact hunsigned hcs
    | negative hcs =>
      rintro _ ⟨⟩
      rfl
  | text | minus | newline =>
    rintro _ ⟨⟩
    rfl

/-- A token points at its text, which does not begin with a blank. -/
theorem exists_pointsAt_of_lex {l : Lexeme} (h : lex source = .ok lexemes) (hl : l ∈ lexemes)
    (hnewline : l.token ≠ .newline) :
    ∃ before c cs, l.span.PointsAt source before (c :: cs) ∧ isBlank c = false := by
  obtain ⟨before, slice, after, hcuts, -, hspelled, -⟩ := (scanned_of_lex h).exists_cuts rfl l hl
  obtain ⟨c, cs, rfl⟩ := List.exists_cons_of_ne_nil hspelled.ne_nil
  exact ⟨before, c, cs, pointsAt_of_cuts hcuts hspelled.ne_nil (hspelled.newline_notMem hnewline),
    isBlank_head_of_spelledBy hspelled c rfl⟩

theorem Lexed.exists_pointsAt {cs : List Char} {result : Except Unexpected (List Lexeme)}
    (h : Lexed before cs result) (hsource : source.toList = before ++ cs) {e : Unexpected}
    (hresult : result = .error e) :
    ∃ start c slice, e.span.PointsAt source start (c :: slice) ∧ isBlank c = false ∧
      e.snippet = String.ofList (c :: slice) := by
  induction h with
  | done => contradiction
  | blank hc _ ih | comment hbody hrest _ ih =>
    rw [← List.append_assoc] at hsource
    exact ih hsource hresult
  | @token t before cs rest result hspelled hlongest _ ih =>
    rw [← List.append_assoc] at hsource
    refine ih hsource ?_
    cases result with
    | error e' => exact hresult
    | ok lexemes => contradiction
  | @unexpected c before cs rest hblank hnewline =>
    obtain rfl := Except.error.inj hresult
    exact ⟨before, c, cs,
      pointsAt_of_cuts (spanAfter_cuts hsource) (List.cons_ne_nil c cs) hnewline, hblank, rfl⟩

/-- What is no token points at its text, which does not begin with a blank. -/
theorem exists_pointsAt_of_lex_error {e : Unexpected} (h : lex source = .error e) :
    ∃ before c slice, e.span.PointsAt source before (c :: slice) ∧ isBlank c = false ∧
      e.snippet = String.ofList (c :: slice) :=
  (lexed_lexFrom [] source.toList).exists_pointsAt rfl h

/-! ## Places of what is not well formed -/

/-- The labels of a line are the lexemes that it begins with. -/
theorem leadingLabels_append (lexemes : List Lexeme) :
    (leadingLabels lexemes).1.map (fun label => ⟨.labelDef label.1, label.2⟩) ++
      (leadingLabels lexemes).2 = lexemes := by
  induction lexemes with
  | nil => rfl
  | cons l lexemes ih =>
    obtain ⟨token, span⟩ := l
    cases token with
    | labelDef name => exact congrArg (_ :: ·) ih
    | _ => rfl

theorem numberWord_error {word : String} {span : Span} {e : MalformedAt}
    (h : numberWord word span = .error e) : e.span = span := by
  unfold numberWord at h
  split at h
  · contradiction
  · obtain rfl := Except.error.inj h
    rfl

/-- An operand that is not well formed is at one of its lexemes, or at the mnemonic. -/
theorem readOperand_error {op : Opcode} {mnemonic : Span} {e : MalformedAt}
    (h : readOperand op mnemonic lexemes = .error e) :
    e.span = mnemonic ∨ ∃ l ∈ lexemes, l.span = e.span := by
  unfold readOperand at h
  split at h
  · contradiction
  split at h
  · obtain rfl := Except.error.inj h
    exact .inl rfl
  next token span rest =>
  right
  have hhead (hspan : span = e.span) : ∃ l ∈ ⟨token, span⟩ :: rest, l.span = e.span :=
    ⟨_, List.mem_cons_self, hspan⟩
  split at h
  · contradiction
  · rcases bind_eq_error h with h | ⟨x, -, h⟩
    · exact hhead (numberWord_error h).symm
    · contradiction
  · split at h
    · next word wordSpan last =>
      rcases bind_eq_error h with h | ⟨x, -, h⟩
      · exact ⟨_, List.mem_cons_of_mem _ List.mem_cons_self, (numberWord_error h).symm⟩
      · contradiction
    · obtain rfl := Except.error.inj h
      exact hhead rfl
  · contradiction
  · contradiction
  -- The four integer shapes are refused alike.
  iterate 4
    · split at h
      · contradiction
      · obtain rfl := Except.error.inj h
        exact hhead rfl
  · obtain rfl := Except.error.inj h
    exact hhead rfl

/-- A line that is not well formed is so at one of its lexemes. -/
theorem readStatement?_error {e : MalformedAt} (h : readStatement? lexemes = .error e) :
    ∃ l ∈ lexemes, l.span = e.span := by
  unfold readStatement? at h
  split at h
  · contradiction
  · next name span rest =>
    split at h
    · obtain rfl := Except.error.inj h
      exact ⟨_, List.mem_cons_self, rfl⟩
    · next op hop =>
      rcases bind_eq_error h with h | ⟨⟨operand, left⟩, hoperand, h⟩
      · rcases readOperand_error h with hspan | ⟨l, hl, hspan⟩
        · exact ⟨_, List.mem_cons_self, hspan.symm⟩
        · exact ⟨l, List.mem_cons_of_mem _ hl, hspan⟩
      · cases left with
        | nil => contradiction
        | cons extra left =>
          obtain rfl := Except.error.inj h
          obtain ⟨taken, rfl, -⟩ := spellsOperand_of_readOperand hoperand
          exact ⟨extra, by simp, rfl⟩
  · next token span rest =>
    obtain rfl := Except.error.inj h
    exact ⟨_, List.mem_cons_self, rfl⟩

/-! ## Places that the reader notes -/

/-- An error in assembling lexemes is at a place of a kind, and so is the definition that it goes
back to. -/
structure CauseAt.IsAt (P : Span → Prop) (e : CauseAt) : Prop where
  span : P e.span
  first : ∀ name first, e.cause = .duplicateLabel name first → P first
  lexed : ∀ snippet, e.cause ≠ .unexpectedInput snippet

namespace Reader

variable {P : Span → Prop} {name : String} {span : Span} {e : CauseAt}

/-- All places that the reader has noted are of a kind. -/
def Notes (P : Span → Prop) (r : Reader) : Prop :=
  ∀ entry ∈ r.labels, P entry.firstUse ∧ ∀ s ∈ entry.definedAt, P s

theorem notes_empty (P : Span → Prop) : Notes P {} := nofun

theorem Notes.mention (h : r.Notes P) (hspan : P span) (name : String) :
    (r.mention name span).2.Notes P := by
  unfold Reader.mention
  split
  · exact h
  · intro entry hentry
    rcases List.mem_append.1 hentry with hentry | hentry
    · exact h entry hentry
    · obtain rfl := List.mem_singleton.1 hentry
      exact ⟨hspan, nofun⟩

theorem Notes.markDefined (h : r.Notes P) (hspan : P span) (name : String) :
    (r.markDefined name span).Notes P := by
  intro entry hentry
  obtain ⟨old, hold, rfl⟩ := List.mem_map.1 hentry
  obtain ⟨hfirst, hdefined⟩ := h old hold
  split
  · refine ⟨hfirst, fun s hs => ?_⟩
    obtain rfl := Option.some.inj hs
    exact hspan
  · exact ⟨hfirst, hdefined⟩

theorem Notes.define (h : r.Notes P) (hspan : P span) (ht : r.define name span = .ok t) :
    t.Notes P := by
  unfold Reader.define at ht
  split at ht
  · contradiction
  · obtain ⟨assembly, -, ht⟩ := exists_of_bind_ok ht
    obtain rfl := Except.ok.inj ht
    exact Notes.markDefined (h.mention hspan name) hspan name

theorem place_error {α : Type} {x : Except AssemblyError α} (h : place span x = .error e) :
    ∃ error, e = ⟨.assembly error, span⟩ := by
  cases x with
  | ok y => contradiction
  | error error => exact ⟨error, (Except.error.inj h).symm⟩

theorem isAt_assembly {error : AssemblyError} (hspan : P span) :
    CauseAt.IsAt P ⟨.assembly error, span⟩ :=
  ⟨hspan, nofun, nofun⟩

theorem Notes.isAt_define (h : r.Notes P) (hspan : P span) (ht : r.define name span = .error e) :
    e.IsAt P := by
  unfold Reader.define at ht
  split at ht
  · next first hfirst =>
    obtain rfl := Except.error.inj ht
    refine ⟨hspan, ?_, nofun⟩
    rintro _ _ ⟨⟩
    obtain ⟨entry, hentry, hdefined⟩ := Option.bind_eq_some_iff.1 hfirst
    exact (h entry (List.mem_of_find?_eq_some hentry)).2 _ hdefined
  · rcases bind_eq_error ht with ht | ⟨assembly, -, ht⟩
    · obtain ⟨error, rfl⟩ := place_error ht
      exact isAt_assembly hspan
    · contradiction

theorem Notes.emit {statement : Statement} (h : r.Notes P)
    (hmention : ∀ m ∈ statement.mention?, P m.span) (ht : r.emit statement span = .ok t) :
    t.Notes P := by
  obtain ⟨op, operand⟩ := statement
  cases operand with
  | none | immediate =>
    obtain ⟨assembly, -, ht⟩ := exists_of_bind_ok ht
    obtain rfl := Except.ok.inj ht
    exact h
  | target name nameSpan =>
    obtain ⟨assembly, -, ht⟩ := exists_of_bind_ok ht
    obtain rfl := Except.ok.inj ht
    exact h.mention (hmention ⟨name, nameSpan⟩ rfl) name

theorem emit_error {statement : Statement} (ht : r.emit statement span = .error e) :
    ∃ error, e = ⟨.assembly error, span⟩ := by
  obtain ⟨op, operand⟩ := statement
  cases operand with
  | none | immediate | target =>
    rcases bind_eq_error ht with ht | ⟨assembly, -, ht⟩
    · exact place_error ht
    · contradiction

theorem Notes.labels {labels : List (String × Span)} (h : r.Notes P)
    (hlabels : ∀ label ∈ labels, P label.2)
    (ht : labels.foldlM (fun r (name, span) => r.define name span) r = .ok t) : t.Notes P := by
  refine foldlM_preserves h (fun u label v hlabel hu hv => ?_) ht
  exact Notes.define hu (hlabels label hlabel) hv

/-- The places of a line are those of its lexemes. -/
theorem exists_mem_of_mem_leadingLabels {label : String × Span}
    (h : label ∈ (leadingLabels lexemes).1) : ∃ l ∈ lexemes, l.span = label.2 := by
  refine ⟨⟨.labelDef label.1, label.2⟩, ?_, rfl⟩
  rw [← leadingLabels_append lexemes]
  exact List.mem_append_left _ (List.mem_map.2 ⟨label, h, rfl⟩)

theorem mem_of_mem_rest {l : Lexeme} (h : l ∈ (leadingLabels lexemes).2) : l ∈ lexemes := by
  rw [← leadingLabels_append lexemes]
  exact List.mem_append_right _ h

theorem Notes.line (h : r.Notes P) (hlexemes : ∀ l ∈ lexemes, P l.span)
    (ht : r.line lexemes = .ok t) : t.Notes P := by
  unfold Reader.line at ht
  obtain ⟨u, hu, ht⟩ := exists_of_bind_ok ht
  have hnotes : u.Notes P := h.labels (fun label hlabel => by
    obtain ⟨l, hl, hspan⟩ := exists_mem_of_mem_leadingLabels hlabel
    exact hspan ▸ hlexemes l hl) hu
  split at ht
  · contradiction
  · obtain rfl := Except.ok.inj ht
    exact hnotes
  · next statement hstatement =>
    refine hnotes.emit (fun m hm => ?_) ht
    have hmem : m ∈ lineMentions lexemes := by
      rw [lineMentions_eq hstatement]
      exact List.mem_append_right _ (Option.mem_toList.2 hm)
    rcases mem_of_mem_lineMentions hmem with hmem | hmem
    · exact hlexemes _ hmem
    · exact hlexemes _ hmem

theorem Notes.isAt_line (h : r.Notes P) (hlexemes : ∀ l ∈ lexemes, P l.span)
    (ht : r.line lexemes = .error e) : e.IsAt P := by
  unfold Reader.line at ht
  have hlabels : ∀ label ∈ (leadingLabels lexemes).1, P label.2 := by
    intro label hlabel
    obtain ⟨l, hl, hspan⟩ := exists_mem_of_mem_leadingLabels hlabel
    exact hspan ▸ hlexemes l hl
  rcases bind_eq_error ht with ht | ⟨u, hu, ht⟩
  · obtain ⟨before, label, after, u, hsplit, hu, ht⟩ := exists_of_foldlM_error ht
    have hnotes : u.Notes P := h.labels (fun other hother =>
      hlabels other (by rw [hsplit]; exact List.mem_append_left _ hother)) hu
    exact hnotes.isAt_define (hlabels label (by simp [hsplit])) ht
  · split at ht
    · next malformed hmalformed =>
      obtain rfl := Except.error.inj ht
      obtain ⟨l, hl, hspan⟩ := readStatement?_error hmalformed
      exact ⟨hspan ▸ hlexemes l (mem_of_mem_rest hl), nofun, nofun⟩
    · contradiction
    · next statement hstatement =>
      obtain ⟨error, rfl⟩ := emit_error ht
      refine isAt_assembly ?_
      cases hrest : (leadingLabels lexemes).2 with
      | nil =>
        rw [hrest] at hstatement
        cases hstatement
      | cons l rest => exact hlexemes l (mem_of_mem_rest (by rw [hrest]; exact List.mem_cons_self))

end Reader

/-- **What is wrong with lexemes** shows at one of them, which is no newline. -/
theorem isAt_of_assembleLexemes_error {e : CauseAt} (h : assembleLexemes lexemes = .error e) :
    e.IsAt fun s => ∃ l ∈ lexemes, l.token ≠ .newline ∧ l.span = s := by
  have hlines : ∀ line ∈ linesOf lexemes, ∀ l ∈ line,
      ∃ l' ∈ lexemes, l'.token ≠ .newline ∧ l'.span = l.span := by
    intro line hline l hl
    have hmem := List.mem_flatten_of_mem hline hl
    rw [flatten_linesOf, List.mem_filter] at hmem
    exact ⟨l, hmem.1, by simpa using hmem.2, rfl⟩
  rcases bind_eq_error h with h | ⟨r, hr, h⟩
  · obtain ⟨before, line, after, r, hsplit, hr, h⟩ := exists_of_foldlM_error h
    rw [hsplit] at hlines
    refine Reader.Notes.isAt_line ?_ (hlines line (by simp)) h
    refine foldlM_preserves (Reader.notes_empty _) (fun u line v hline hu hv => ?_) hr
    exact hu.line (hlines line (List.mem_append_left _ hline)) hv
  · obtain ⟨before, m, hfirst, rfl⟩ := exists_of_finish_error hr h
    exact Reader.isAt_assembly ⟨_, hfirst.word_mem, nofun, rfl⟩

/-- **What is wrong with a listing** shows at text of one line that does not begin with a blank. -/
theorem exists_pointsAt_of_assemble_error {e : Error} (h : assemble source = .error e) :
    ∃ before c slice, e.span.PointsAt source before (c :: slice) ∧ isBlank c = false ∧
      (∀ snippet, e.cause = .unexpectedInput snippet → snippet = String.ofList (c :: slice)) ∧
      (∀ name first, e.cause = .duplicateLabel name first →
        ∃ before slice, first.PointsAt source before slice) ∧
      e.line = before.count '\n' + 1 := by
  unfold assemble at h
  cases hlex : lex source with
  | error u =>
    rw [hlex] at h
    obtain rfl := Except.error.inj h
    obtain ⟨before, c, slice, hpoints, hblank, hsnippet⟩ := exists_pointsAt_of_lex_error hlex
    obtain ⟨after, hcuts⟩ := hpoints.cuts
    refine ⟨before, c, slice, hpoints, hblank, ?_, nofun, lineNumber_of_cuts hcuts⟩
    rintro _ ⟨⟩
    exact hsnippet
  | ok lexemes =>
    rw [hlex] at h
    cases hassemble : assembleLexemes lexemes with
    | ok p =>
      simp only [hassemble] at h
      cases h
    | error u =>
      simp only [hassemble] at h
      obtain rfl := Except.error.inj h
      obtain ⟨⟨l, hl, hnewline, hspan⟩, hfirst, hlexed⟩ := isAt_of_assembleLexemes_error hassemble
      obtain ⟨before, c, slice, hpoints, hblank⟩ := exists_pointsAt_of_lex hlex hl hnewline
      rw [hspan] at hpoints
      obtain ⟨after, hcuts⟩ := hpoints.cuts
      refine ⟨before, c, slice, hpoints, hblank, fun snippet hcause => ?_,
        fun name first hcause => ?_, lineNumber_of_cuts hcuts⟩
      · exact absurd hcause (hlexed snippet)
      · obtain ⟨l, hl, hnewline, rfl⟩ := hfirst name first hcause
        obtain ⟨before, c, slice, hpoints, -⟩ := exists_pointsAt_of_lex hlex hl hnewline
        exact ⟨before, c :: slice, hpoints⟩

/-! ## The line under the text -/

theorem byteLength_eq_length {cs : List Char} (h : ∀ c ∈ cs, c.utf8Size = 1) :
    byteLength cs = cs.length := by
  induction cs with
  | nil => rfl
  | cons c cs ih =>
    rw [byteLength_cons, h c List.mem_cons_self, ih fun d hd => h d (List.mem_cons_of_mem c hd),
      List.length_cons, Nat.add_comm]

/-- A line that has a character which is no carriage return keeps it, and what stands before it. -/
theorem exists_dropReturn_eq (hc : c ≠ '\r') (before after : List Char) :
    ∃ rest, dropReturn (before ++ c :: after) = before ++ c :: rest := by
  unfold dropReturn
  split
  · next hlast =>
    cases after using List.reverseRecOn with
    | nil =>
      rw [List.getLast?_append_of_ne_nil _ (List.cons_ne_nil _ _)] at hlast
      exact absurd (Option.some.inj hlast) hc
    | append_singleton after last _ =>
      refine ⟨after, ?_⟩
      rw [← List.cons_append, ← List.append_assoc, List.dropLast_concat]
  · exact ⟨after, rfl⟩

/-- **The line that is shown** for a place has the character there, and before it what stands before
it on its line. -/
theorem exists_lineText_eq (hsource : source.toList = before ++ c :: after)
    (hblank : isBlank c = false) (hnewline : c ≠ '\n') :
    ∃ rest, lineText source (before.count '\n' + 1) =
      String.ofList (lineBefore before ++ c :: rest) := by
  have hreturn : c ≠ '\r' := by
    rintro rfl
    contradiction
  obtain ⟨rest, hrest⟩ := exists_dropReturn_eq hreturn (lineBefore before) (lineAfter after)
  refine ⟨rest, ?_⟩
  rw [lineText_of_split hsource, ← hrest, lineAfter, List.takeWhile_cons_of_pos (by simpa)]
  rfl

theorem exists_marks_eq (e : Error) :
    ∃ message more, e.diagnostic.marks = ⟨e.span, message, true⟩ :: more := by
  obtain ⟨cause, span, line⟩ := e
  cases cause with
  | unexpectedInput | malformed | duplicateLabel => exact ⟨_, _, rfl⟩
  | assembly error =>
    cases error with
    | unresolvedLabel label name => cases name <;> exact ⟨_, _, rfl⟩
    | _ => exact ⟨_, _, rfl⟩

/-- The diagnostic of a listing error shows the line that the error points at. -/
theorem exists_segments_eq (e : Error) (source : String) :
    ∃ message above below, ({ e.diagnostic with source := some source } : Diagnostic).segments =
      above ++ Diagnostic.excerpt source ⟨e.span, message, true⟩ ++ below := by
  obtain ⟨message, more, hmarks⟩ := exists_marks_eq e
  have hexcerpt : ({ e.diagnostic with source := some source } : Diagnostic).primaryExcerpt =
      Diagnostic.excerpt source ⟨e.span, message, true⟩ := by
    simp [Diagnostic.primaryExcerpt, hmarks]
  rw [Diagnostic.segments, hexcerpt]
  simp only [List.append_assoc]
  exact ⟨message, _, _, rfl⟩

open Diagnostic (bare styled spaces) in
/-- An excerpt has its line with the carets below it. -/
theorem exists_excerpt_eq (source : String) (mark : Mark) :
    ∃ above below, Diagnostic.excerpt source mark =
      above ++ [bare (" " ++ lineText source (lineAndColumn source mark.span.start).1 ++ "\n" ++
        spaces (Text.decimal (lineAndColumn source mark.span.start).1).length ++ " "),
        styled .cyan "|",
        bare (" " ++ spaces ((lineAndColumn source mark.span.start).2 - 1)),
        styled .boldRed (String.ofList (List.replicate mark.span.width '^'))] ++ below := by
  unfold Diagnostic.excerpt
  generalize lineAndColumn source mark.span.start = place
  obtain ⟨line, column⟩ := place
  dsimp only
  rw [List.append_assoc]
  exact ⟨[_, _, _, _, _, _, _, _], _, rfl⟩

open Diagnostic (bare styled spaces) in
/-- **Every listing error points at text of one line.** For every source:

* An error in reading tokens is at text of one line, which is its snippet.
* An error in assembling is at text of one line, and so is the definition that a duplicate goes back
  to. Its line is the one of that text.
* Under that line the carets begin after as many spaces as there are bytes before the text on the
  line. That is inside the line, counted in bytes; where only characters of one byte stand before
  the text, it is under the first character of the text. -/
theorem listing_error_points_at_text (source : String) :
    (∀ e, lex source = .error e → ∃ before slice, e.span.PointsAt source before slice ∧
      e.snippet = String.ofList slice ∧
      lineNumber source e.span.start = before.count '\n' + 1) ∧
    ∀ e, assemble source = .error e → ∃ before slice, e.span.PointsAt source before slice ∧
      (∀ snippet, e.cause = .unexpectedInput snippet → snippet = String.ofList slice) ∧
      (∀ name first, e.cause = .duplicateLabel name first →
        ∃ before slice, first.PointsAt source before slice) ∧
      e.line = before.count '\n' + 1 ∧
      ∃ above below,
        ({ e.diagnostic with source := some source } : Diagnostic).segments =
          above ++ [bare (" " ++ lineText source e.line ++ "\n" ++
            spaces (Text.decimal e.line).length ++ " "), styled .cyan "|",
            bare (" " ++ spaces (byteLength (lineBefore before))),
            styled .boldRed (String.ofList (List.replicate e.span.width '^'))] ++ below ∧
        byteLength (lineBefore before) < (lineText source e.line).utf8ByteSize ∧
        ((∀ c ∈ lineBefore before, c.utf8Size = 1) →
          (lineText source e.line).toList[byteLength (lineBefore before)]? = slice.head?) := by
  constructor
  · intro e h
    obtain ⟨before, c, slice, hpoints, -, hsnippet⟩ := exists_pointsAt_of_lex_error h
    obtain ⟨after, hcuts⟩ := hpoints.cuts
    exact ⟨before, c :: slice, hpoints, hsnippet, lineNumber_of_cuts hcuts⟩
  · intro e h
    obtain ⟨before, c, slice, hpoints, hblank, hsnippet, hfirst, hline⟩ :=
      exists_pointsAt_of_assemble_error h
    obtain ⟨after, hcuts⟩ := hpoints.cuts
    have hplace : lineAndColumn source e.span.start =
        (e.line, byteLength (lineBefore before) + 1) := by
      rw [hcuts.start, lineAndColumn_of_split hcuts.text, hline]
    obtain ⟨message, above, below, hsegments⟩ := exists_segments_eq e source
    obtain ⟨upper, lower, hexcerpt⟩ := exists_excerpt_eq source ⟨e.span, message, true⟩
    have hnewline : c ≠ '\n' := fun hc => hpoints.oneLine (by simp [hc])
    obtain ⟨rest, hrest⟩ := exists_lineText_eq hcuts.text hblank hnewline
    rw [← hline] at hrest
    refine ⟨before, c :: slice, hpoints, hsnippet, hfirst, hline, above ++ upper, lower ++ below,
      ?_, ?_, ?_⟩
    · rw [hsegments, hexcerpt]
      simp only [hplace, Nat.add_sub_cancel, List.append_assoc]
    · rw [hrest, ← byteLength_eq, byteLength_append]
      exact Nat.lt_add_of_pos_right (byteLength_pos (List.cons_ne_nil c rest))
    · intro hascii
      rw [hrest, String.toList_ofList, byteLength_eq_length hascii]
      simp

/-- A label that is defined again behind another one, after a line that ends with a carriage return.
-/
theorem duplicate_label_points_at_text :
    let source := "x: PNIL\r\n a: x:\n"
    let e : Error := ⟨.duplicateLabel "x" ⟨0, 2⟩, ⟨13, 15⟩, 2⟩
    assemble source = .error e ∧ ∃ before slice, e.span.PointsAt source before slice ∧
      (∃ before slice, (Span.mk 0 2).PointsAt source before slice) ∧ before.count '\n' = 1 ∧
      byteLength (lineBefore before) < (lineText source 2).utf8ByteSize := by
  intro source e
  have hassemble : assemble source = .error e := by decide +kernel
  obtain ⟨before, slice, hpoints, -, hfirst, hline, -, -, -, hinside, -⟩ :=
    (listing_error_points_at_text source).2 e hassemble
  exact ⟨hassemble, before, slice, hpoints, hfirst "x" ⟨0, 2⟩ rfl, (Nat.succ.inj hline).symm,
    hinside⟩

/-- Characters of more than one byte move the caret past the end of its line: under a line of
thirteen characters it comes after sixteen spaces. -/
theorem caret_past_end_of_line :
    let source := "PSTR \"éééé\" @"
    let e : Error := ⟨.unexpectedInput "@", ⟨16, 17⟩, 1⟩
    assemble source = .error e ∧
      ({ e.diagnostic with source := some source } : Diagnostic).plain =
        "error[ZOE-L001]: unexpected input '@'\n  --> 1:17\n  |\n1 | PSTR \"éééé\" @\n  | " ++
          "                ^ here\n  |\n" ∧
      lineText source e.line = "PSTR \"éééé\" @" ∧
      ¬(lineAndColumn source e.span.start).2 - 1 < (lineText source e.line).length := by
  decide +kernel

end Listing
end StackMachine
