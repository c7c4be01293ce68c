import StackMachine.Proofs.Listing.Patterns
import StackMachine.Proofs.Listing.Places
import StackMachine.Listing.Reader

/-!
# Scanning a listing

A listing is gaps and tokens in turn. A gap is blanks and perhaps a comment up to the end of its
line; a token is the longest text of a pattern where the gap before it ends. So nothing of a listing
is lost by reading tokens, and the newline tokens are the newlines of the text: the lines that the
tokens are split into are the lines of the text.
-/

namespace StackMachine.Listing

/-! ## Gaps and tokens -/

/-- Blanks, and perhaps a comment up to the newline or the end that comes after. -/
inductive Gap : List Char → List Char → Prop
  | nil {after : List Char} : Gap [] after
  | blank {c : Char} {gap after : List Char} (hc : isBlank c) (h : Gap gap after) :
    Gap (c :: gap) after
  | comment {body after : List Char} (hbody : '\n' ∉ body) (hafter : ∀ c ∈ after.head?, c = '\n') :
    Gap (';' :: body) after

/-- The bytes that characters take, with the characters before them. -/
def spanAfter (before cs : List Char) : Span :=
  ⟨byteLength before, byteLength before + byteLength cs⟩

/-- What reading tokens makes of characters, one piece after another, with the characters before
them. -/
inductive Lexed : List Char → List Char → Except Unexpected (List Lexeme) → Prop
  | done {before : List Char} : Lexed before [] (.ok [])
  | blank {c : Char} {before rest : List Char} {result : Except Unexpected (List Lexeme)}
    (hc : isBlank c) (h : Lexed (before ++ [c]) rest result) : Lexed before ([c] ++ rest) result
  | comment {before body rest : List Char} {result : Except Unexpected (List Lexeme)}
    (hbody : '\n' ∉ body) (hrest : ∀ c ∈ rest.head?, c = '\n')
    (h : Lexed (before ++ ';' :: body) rest result) : Lexed before (';' :: body ++ rest) result
  | token {t : Token} {before cs rest : List Char} {result : Except Unexpected (List Lexeme)}
    (hspelled : t.SpelledBy cs) (hlongest : Longest cs rest)
    (h : Lexed (before ++ cs) rest result) :
    Lexed before (cs ++ rest) (result.map (⟨t, spanAfter before cs⟩ :: ·))
  | unexpected {c : Char} {before cs rest : List Char} (hblank : isBlank c = false)
    (hnewline : '\n' ∉ c :: cs) :
    Lexed before (c :: cs ++ rest) (.error ⟨spanAfter before (c :: cs), String.ofList (c :: cs)⟩)

/-- Characters are gaps with tokens between them, with the characters before them. -/
inductive Scanned : List Char → List Char → List Lexeme → Prop
  | done {before gap : List Char} (hgap : Gap gap []) : Scanned before gap []
  | token {t : Token} {before gap cs rest : List Char} {lexemes : List Lexeme}
    (hgap : Gap gap (cs ++ rest)) (hspelled : t.SpelledBy cs) (hlongest : Longest cs rest)
    (hrest : Scanned (before ++ gap ++ cs) rest lexemes) :
    Scanned before (gap ++ (cs ++ rest)) (⟨t, spanAfter (before ++ gap) cs⟩ :: lexemes)

/-- What stands between tokens: before the first one, between neighbours, and after the last one. -/
def gapsFrom (start stop : Nat) : List Lexeme → List Span
  | [] => [⟨start, stop⟩]
  | l :: lexemes => ⟨start, l.span.start⟩ :: gapsFrom l.span.stop stop lexemes

variable {c : Char} {before cs gap after body rest : List Char} {t : Token} {l : Lexeme}
  {lexemes : List Lexeme} {source : String}

/-! ## Reading tokens, piece after piece -/

/-- What a piece makes of characters, with what is made of those after them. -/
def Piece.result (p : Piece) (before cs : List Char) (rest : Except Unexpected (List Lexeme)) :
    Except Unexpected (List Lexeme) :=
  match p with
  | .blank => rest
  | .token t => rest.map (⟨t, spanAfter before cs⟩ :: ·)
  | .unexpected => .error ⟨spanAfter before cs, String.ofList cs⟩

theorem Lexed.piece {p : Piece} {result : Except Unexpected (List Lexeme)} (hfits : p.Fits cs rest)
    (hlongest : ∀ t, p = .token t → Longest cs rest) (h : Lexed (before ++ cs) rest result) :
    Lexed before (cs ++ rest) (p.result before cs result) := by
  cases hfits with
  | blank hc => exact .blank hc h
  | comment hbody hrest => exact .comment hbody hrest h
  | token hspelled => exact .token hspelled (hlongest _ rfl) h
  | unexpected hblank hnewline => exact .unexpected hblank hnewline

theorem lexed_lexFrom (before cs : List Char) :
    Lexed before cs (lexFrom (byteLength before) cs) := by
  induction hlength : cs.length using Nat.strongRecOn generalizing before cs with
  | ind n ih =>
    cases cs with
    | nil =>
      rw [lexFrom]
      exact .done
    | cons c cs =>
      have hlt : (cs.drop (piece c cs).2).length < n := by
        rw [← hlength, List.length_drop, List.length_cons]
        omega
      have hrest := ih _ hlt (before ++ c :: cs.take (piece c cs).2) _ rfl
      have h := Lexed.piece (piece_fits c cs) (fun t ht => longest_of_token ht) hrest
      rw [List.cons_append, List.take_append_drop, byteLength_append] at h
      rw [lexFrom]
      exact h

/-! ## Gaps -/

theorem Gap.newline_notMem (h : Gap gap after) : '\n' ∉ gap := by
  induction h with
  | nil => exact List.not_mem_nil
  | blank hc h ih =>
    have hne := ne_of_test hc (d := '\n') rfl
    simp [ih, Ne.symm hne]
  | comment hbody hafter => simpa using hbody

/-- No gap begins with a newline. -/
theorem Gap.eq_nil (h : Gap gap after) (hhead : ∀ c ∈ (gap ++ after).head?, c = '\n') :
    gap = [] := by
  cases gap with
  | nil => rfl
  | cons c gap =>
    obtain rfl := hhead c rfl
    exact absurd List.mem_cons_self h.newline_notMem

theorem Scanned.blank (h : Scanned (before ++ [c]) cs lexemes) (hc : isBlank c) :
    Scanned before (c :: cs) lexemes := by
  generalize hbefore : before ++ [c] = before' at h
  cases h with
  | done hgap => exact .done (hgap.blank hc)
  | @token t _ gap cs rest lexemes hgap hspelled hlongest hrest =>
    subst hbefore
    have h := @Scanned.token t before (c :: gap) cs rest lexemes (hgap.blank hc) hspelled
      hlongest (by simpa using hrest)
    simpa using h

theorem Scanned.comment (h : Scanned (before ++ ';' :: body) cs lexemes)
    (hbody : '\n' ∉ body) (hcs : ∀ c ∈ cs.head?, c = '\n') :
    Scanned before (';' :: body ++ cs) lexemes := by
  generalize hbefore : before ++ ';' :: body = before' at h
  cases h with
  | done hgap =>
    obtain rfl := hgap.eq_nil (by rwa [List.append_nil])
    rw [List.append_nil]
    exact .done (.comment hbody nofun)
  | @token t _ gap cs rest lexemes hgap hspelled hlongest hrest =>
    subst hbefore
    obtain rfl := hgap.eq_nil hcs
    rw [List.append_nil] at hrest ⊢
    exact @Scanned.token t before (';' :: body) cs rest lexemes (.comment hbody hcs) hspelled
      hlongest hrest

/-- **Reading tokens goes over gaps and tokens.** -/
theorem scanned_of_lexFrom (h : lexFrom (byteLength before) cs = .ok lexemes) :
    Scanned before cs lexemes := by
  have hlexed := lexed_lexFrom before cs
  rw [h] at hlexed
  generalize hresult : Except.ok lexemes = result at hlexed
  clear h
  induction hlexed generalizing lexemes with
  | done =>
    obtain rfl := Except.ok.inj hresult
    exact .done .nil
  | blank hc _ ih => exact (ih hresult).blank hc
  | comment hbody hrest _ ih => exact (ih hresult).comment hbody hrest
  | @token t before cs rest result hspelled hlongest _ ih =>
    obtain ⟨more, rfl, rfl⟩ := exists_of_map_ok hresult.symm
    have h := @Scanned.token t before [] cs rest more .nil hspelled hlongest
      (by simpa using ih rfl)
    rwa [List.append_nil] at h
  | unexpected => contradiction

theorem scanned_of_lex (h : lex source = .ok lexemes) : Scanned [] source.toList lexemes :=
  scanned_of_lexFrom h

/-! ## Where tokens stand -/

theorem spanAfter_cuts (h : source.toList = before ++ (cs ++ rest)) :
    (spanAfter before cs).Cuts source before cs rest :=
  ⟨h, rfl, rfl⟩

theorem eq_spanAfter_of_cuts {s : Span} (h : s.Cuts source before cs after) :
    s = spanAfter before cs := by
  obtain ⟨start, stop⟩ := s
  obtain ⟨-, rfl, rfl⟩ := h
  rfl

/-- **Each token is where its span says**, after the characters before all of them. -/
theorem Scanned.exists_cuts (h : Scanned before cs lexemes)
    (hsource : source.toList = before ++ cs) :
    ∀ l ∈ lexemes, ∃ start slice after, l.span.Cuts source start slice after ∧ before <+: start ∧
      l.token.SpelledBy slice ∧ Longest slice after := by
  induction h with
  | done => exact nofun
  | @token t before gap cs rest lexemes hgap hspelled hlongest hrest ih =>
    rw [← List.append_assoc] at hsource
    rintro l (_ | ⟨_, hl⟩)
    · exact ⟨before ++ gap, cs, rest, spanAfter_cuts hsource, List.prefix_append before gap,
        hspelled, hlongest⟩
    · rw [← List.append_assoc] at hsource
      obtain ⟨start, slice, after, hcuts, hinit, hslice⟩ := ih hsource l hl
      rw [List.append_assoc] at hinit
      exact ⟨start, slice, after, hcuts, (List.prefix_append _ _).trans hinit, hslice⟩

theorem Scanned.le_start (h : Scanned before cs lexemes) :
    ∀ l ∈ lexemes, byteLength before ≤ l.span.start := by
  intro l hl
  have hsource : (String.ofList (before ++ cs)).toList = before ++ cs := String.toList_ofList
  obtain ⟨start, slice, after, hcuts, ⟨more, rfl⟩, -⟩ := h.exists_cuts hsource l hl
  rw [hcuts.start, byteLength_append]
  exact Nat.le_add_right _ _

/-- **Tokens stand one after another.** -/
theorem Scanned.pairwise (h : Scanned before cs lexemes) :
    lexemes.Pairwise fun l m => l.span.stop ≤ m.span.start := by
  induction h with
  | done => exact .nil
  | @token t before gap cs rest lexemes hgap hspelled hlongest hrest ih =>
    refine List.pairwise_cons.2 ⟨fun m hm => ?_, ih⟩
    have hle := hrest.le_start m hm
    rwa [byteLength_append] at hle

/-- **Between tokens stand gaps only.** -/
theorem Scanned.gaps (h : Scanned before cs lexemes) (hsource : source.toList = before ++ cs) :
    ∀ s ∈ gapsFrom (byteLength before) source.utf8ByteSize lexemes,
      ∃ start gap after, s.Cuts source start gap after ∧ Gap gap after := by
  induction h with
  | @done before gap hgap =>
    intro s hs
    obtain rfl := List.mem_singleton.1 hs
    refine ⟨before, gap, [], ⟨by rwa [List.append_nil], rfl, ?_⟩, hgap⟩
    rw [← byteLength_toList, hsource, byteLength_append]
  | @token t before gap cs rest lexemes hgap hspelled hlongest hrest ih =>
    rintro s (_ | ⟨_, hs⟩)
    · exact ⟨before, gap, cs ++ rest, ⟨hsource, rfl, byteLength_append before gap⟩, hgap⟩
    · refine ih (by simpa using hsource) s ?_
      rwa [byteLength_append]

/-! ## Newlines -/

/-- A newline after characters without one. -/
theorem exists_of_append_eq_append_newline {start : List Char} (hcs : '\n' ∉ cs)
    (h : cs ++ rest = start ++ '\n' :: after) :
    ∃ more, start = cs ++ more ∧ rest = more ++ '\n' :: after := by
  rcases List.append_eq_append_iff.1 h with ⟨more, hstart, hrest⟩ | ⟨more, hmore, hrest⟩
  · exact ⟨more, hstart, hrest⟩
  · cases more with
    | nil => exact ⟨[], by simpa using hmore.symm, by simpa using hrest.symm⟩
    | cons c more =>
      obtain ⟨rfl, -⟩ := List.cons.inj hrest
      exact absurd (by simp [hmore]) hcs

theorem Token.SpelledBy.eq_newline (h : Token.newline.SpelledBy cs) : cs = ['\n'] := by
  cases h
  rfl

/-- Every newline is a token. -/
theorem Scanned.newline_mem (h : Scanned before cs lexemes) {start : List Char}
    (hcs : cs = start ++ '\n' :: after) :
    ⟨.newline, spanAfter (before ++ start) ['\n']⟩ ∈ lexemes := by
  induction h generalizing start with
  | done hgap =>
    refine absurd ?_ hgap.newline_notMem
    simp [hcs]
  | @token t before gap cs rest lexemes hgap hspelled hlongest hrest ih =>
    obtain ⟨more, rfl, hmore⟩ := exists_of_append_eq_append_newline hgap.newline_notMem hcs
    by_cases ht : t = .newline
    · subst ht
      obtain rfl := hspelled.eq_newline
      cases more with
      | nil => simp
      | cons c more =>
        obtain ⟨rfl, hrest⟩ := List.cons.inj hmore
        have hmem := ih hrest
        simp only [List.append_assoc, List.singleton_append] at hmem ⊢
        exact List.mem_cons_of_mem _ hmem
    · obtain ⟨more, rfl, hrest⟩ :=
        exists_of_append_eq_append_newline (hspelled.newline_notMem ht) hmore
      have hmem := ih hrest
      simp only [List.append_assoc] at hmem ⊢
      exact List.mem_cons_of_mem _ hmem

/-- **The newline tokens are the newlines** of the text. -/
theorem Scanned.newline_mem_iff (h : Scanned [] source.toList lexemes) (s : Span) :
    ⟨.newline, s⟩ ∈ lexemes ↔ s.Covers source ['\n'] := by
  constructor
  · intro hmem
    obtain ⟨start, slice, after, hcuts, -, hspelled, -⟩ := h.exists_cuts rfl _ hmem
    obtain rfl := hspelled.eq_newline
    exact ⟨start, after, hcuts⟩
  · rintro ⟨start, after, hcuts⟩
    have hmem := h.newline_mem hcuts.text
    rwa [eq_spanAfter_of_cuts hcuts]

/-! ## Lines -/

theorem lineNumber_of_cuts {s : Span} (h : s.Cuts source before cs after) :
    lineNumber source s.start = before.count '\n' + 1 := by
  rw [h.start]
  exact lineNumber_of_split h.text

theorem Scanned.le_lineNumber (h : Scanned before cs lexemes)
    (hsource : source.toList = before ++ cs) :
    ∀ l ∈ lexemes, before.count '\n' + 1 ≤ lineNumber source l.span.start := by
  intro l hl
  obtain ⟨start, slice, after, hcuts, hinit, -⟩ := h.exists_cuts hsource l hl
  rw [lineNumber_of_cuts hcuts]
  exact Nat.succ_le_succ (hinit.sublist.count_le '\n')

/-- The tokens of a line, the newline at its end not among them. -/
def tokensOfLine (source : String) (number : Nat) (lexemes : List Lexeme) : List Lexeme :=
  lexemes.filter fun l => l.token ≠ .newline ∧ lineNumber source l.span.start = number

theorem tokensOfLine_newline (source : String) (number : Nat) (s : Span) (lexemes : List Lexeme) :
    tokensOfLine source number (⟨.newline, s⟩ :: lexemes) =
      tokensOfLine source number lexemes := by
  simp [tokensOfLine]

theorem tokensOfLine_cons (hl : l.token ≠ .newline) (source : String) (number : Nat)
    (lexemes : List Lexeme) :
    tokensOfLine source number (l :: lexemes) =
      if lineNumber source l.span.start = number then l :: tokensOfLine source number lexemes
      else tokensOfLine source number lexemes := by
  simp [tokensOfLine, List.filter_cons, hl]

theorem tokensOfLine_eq_nil {number : Nat}
    (h : ∀ l ∈ lexemes, number < lineNumber source l.span.start) :
    tokensOfLine source number lexemes = [] := by
  refine List.filter_eq_nil_iff.2 fun l hl => ?_
  have hne := Nat.ne_of_gt (h l hl)
  simp [hne]

/-- **The lines of tokens are the lines of the text**, in order and none left out. -/
theorem Scanned.linesOf_eq (h : Scanned before cs lexemes)
    (hsource : source.toList = before ++ cs) :
    linesOf lexemes = (List.range (cs.count '\n' + 1)).map fun k =>
      tokensOfLine source (before.count '\n' + 1 + k) lexemes := by
  induction h with
  | done hgap =>
    rw [List.count_eq_zero_of_not_mem hgap.newline_notMem]
    rfl
  | @token t before gap cs rest lexemes hgap hspelled hlongest hrest ih =>
    have hsource' : source.toList = before ++ gap ++ cs ++ rest := by simpa using hsource
    have hlines := ih hsource'
    have hgaps := List.count_eq_zero_of_not_mem hgap.newline_notMem
    by_cases ht : t = .newline
    · subst ht
      obtain rfl := hspelled.eq_newline
      have hfirst : tokensOfLine source (before.count '\n' + 1) lexemes = [] := by
        refine tokensOfLine_eq_nil fun l hl => ?_
        have hle := hrest.le_lineNumber hsource' l hl
        simp only [List.count_append, hgaps, List.count_singleton_self] at hle
        omega
      simp only [tokensOfLine_newline, List.count_append, hgaps, List.count_singleton_self]
        at hlines ⊢
      have hcount : 0 + (1 + rest.count '\n') + 1 = rest.count '\n' + 1 + 1 := by omega
      rw [linesOf, if_pos rfl, hlines, hcount, List.range_succ_eq_map (n := rest.count '\n' + 1),
        List.map_cons, List.map_map, Nat.add_zero, hfirst]
      refine congrArg ([] :: ·) (List.map_congr_left fun k _ => ?_)
      simp only [Function.comp_apply]
      congr 1
      omega
    · have hslice := List.count_eq_zero_of_not_mem (hspelled.newline_notMem ht)
      have hline : lineNumber source (spanAfter (before ++ gap) cs).start =
          before.count '\n' + 1 := by
        have hsplit : source.toList = before ++ gap ++ (cs ++ rest) := by simpa using hsource
        rw [spanAfter, lineNumber_of_split hsplit, List.count_append, hgaps]
      simp only [List.count_append, hgaps, hslice, Nat.add_zero, Nat.zero_add] at hlines ⊢
      rw [linesOf, if_neg ht, hlines, List.range_succ_eq_map, List.map_cons, List.map_cons,
        List.map_map, List.map_map, tokensOfLine_cons ht, if_pos (by rw [hline, Nat.add_zero])]
      refine congrArg (_ :: ·) (List.map_congr_left fun k _ => ?_)
      simp only [Function.comp_apply]
      rw [tokensOfLine_cons ht, if_neg (by rw [hline]; omega)]

/-- A token is on the line that its span begins on. -/
theorem exists_line_of_lex (h : lex source = .ok lexemes) (hl : l ∈ lexemes)
    (hnewline : l.token ≠ .newline) :
    ∃ k line, lineNumber source l.span.start = k + 1 ∧ (linesOf lexemes)[k]? = some line ∧
      l ∈ line := by
  have hscanned := scanned_of_lex h
  obtain ⟨start, slice, after, hcuts, -⟩ := hscanned.exists_cuts rfl l hl
  have hle : start.count '\n' < source.toList.count '\n' + 1 := by
    rw [hcuts.text, List.count_append]
    omega
  have hnumber := lineNumber_of_cuts hcuts
  refine ⟨start.count '\n', tokensOfLine source (start.count '\n' + 1) lexemes, hnumber, ?_, ?_⟩
  · rw [hscanned.linesOf_eq rfl, List.getElem?_map, List.getElem?_range hle, Option.map_some,
      List.count_nil, Nat.zero_add, Nat.add_comm 1]
  · simp [tokensOfLine, hl, hnewline, hnumber]

/-- **Reading tokens loses nothing and keeps lines.** Each token stands where its span says and is
what its slice spells, the longest text of a pattern there; tokens stand in order, with gaps between
them; and the lines that the newline tokens make are the lines of the text. -/
theorem lex_lossless (h : lex source = .ok lexemes) :
    (∀ l ∈ lexemes, ∃ before slice after, l.span.Cuts source before slice after ∧ slice ≠ [] ∧
      l.token.SpelledBy slice ∧ Longest slice after ∧ (l.token ≠ .newline → '\n' ∉ slice)) ∧
    (lexemes.Pairwise fun l m => l.span.stop ≤ m.span.start) ∧
    (∀ s ∈ gapsFrom 0 source.utf8ByteSize lexemes, ∃ before gap after,
      s.Cuts source before gap after ∧ Gap gap after) ∧
    (∀ s, ⟨.newline, s⟩ ∈ lexemes ↔ s.Covers source ['\n']) ∧
    linesOf lexemes = (List.range (source.toList.count '\n' + 1)).map fun k =>
      lexemes.filter fun l => l.token ≠ .newline ∧ lineNumber source l.span.start = k + 1 := by
  have hscanned := scanned_of_lex h
  refine ⟨fun l hl => ?_, hscanned.pairwise, hscanned.gaps rfl, hscanned.newline_mem_iff, ?_⟩
  · obtain ⟨before, slice, after, hcuts, -, hspelled, hlongest⟩ := hscanned.exists_cuts rfl l hl
    exact ⟨before, slice, after, hcuts, hspelled.ne_nil, hspelled, hlongest,
      hspelled.newline_notMem⟩
  · rw [hscanned.linesOf_eq rfl]
    refine List.map_congr_left fun k _ => ?_
    rw [List.count_nil, Nat.zero_add, Nat.add_comm 1]
    rfl

/-- A semicolon and a quote in a literal, a quote in a comment, text of more bytes than characters,
and a numeral with a name right after it: three lines with three, two and no tokens. -/
theorem lex_lossless_of_three_lines :
    let source := "a.b: PSTR \"é;\\\"\" ; \"\r\n\t-1.5e3x\n"
    let lexemes : List Lexeme := [⟨.labelDef "a.b", 0, 4⟩, ⟨.word "PSTR", 5, 9⟩,
      ⟨.text "é;\"", 10, 17⟩, ⟨.newline, 22, 23⟩, ⟨.number "-1.5e3", 24, 30⟩,
      ⟨.word "x", 30, 31⟩, ⟨.newline, 31, 32⟩]
    lex source = .ok lexemes ∧
    (∃ before slice after, (Span.mk 10 17).Cuts source before slice after ∧ slice ≠ [] ∧
      (Token.text "é;\"").SpelledBy slice ∧ Longest slice after ∧ '\n' ∉ slice) ∧
    (∃ before gap after, (Span.mk 17 22).Cuts source before gap after ∧ Gap gap after) ∧
    ((List.range (source.toList.count '\n' + 1)).map fun k =>
      lexemes.filter fun l => l.token ≠ .newline ∧ lineNumber source l.span.start = k + 1) =
        [lexemes.take 3, (lexemes.drop 4).take 2, []] := by
  intro source lexemes
  have hlex : lex source = .ok lexemes := by decide +kernel
  obtain ⟨hslices, -, hgaps, -, hlines⟩ := lex_lossless hlex
  refine ⟨hlex, ?_, hgaps ⟨17, 22⟩ (by decide +kernel), hlines.symm.trans (by decide)⟩
  obtain ⟨before, slice, after, hcuts, hne, hspelled, hlongest, hnewline⟩ :=
    hslices ⟨.text "é;\"", 10, 17⟩ (by decide)
  exact ⟨before, slice, after, hcuts, hne, hspelled, hlongest, hnewline (by decide)⟩

end StackMachine.Listing
