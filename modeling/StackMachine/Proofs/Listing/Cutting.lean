import StackMachine.Listing.Lexer
import StackMachine.Proofs.Number.ReadBack

/-!
# Cutting a listing into tokens

`CutInto` says which tokens characters begin with and what is left after them, wherever the
characters stand. Tokens are cut off one after another, so it composes; words, numerals and newlines
have one lemma each.
-/

namespace StackMachine.Listing

/-! ## Cutting off tokens -/

/-- The characters are these tokens, with blanks between them, and the rest. -/
def CutInto (cs : List Char) (tokens : List Token) (rest : List Char) : Prop :=
  ∀ offset, ∃ lexemes offset', lexemes.map Lexeme.token = tokens ∧
    lexFrom offset cs = (lexFrom offset' rest).map (lexemes ++ ·)

open Number (PlainNumeral)

variable {c : Char} {cs rest more : List Char} {t : Token} {tokens others : List Token} {n : Nat}

/-- A piece that is a token stands before the tokens of what is left. -/
theorem lexFrom_of_token (h : piece c cs = (.token t, n)) (offset : Nat) :
    lexFrom offset (c :: cs) =
      (lexFrom (offset + byteLength (c :: cs.take n)) (cs.drop n)).map
        (⟨t, offset, offset + byteLength (c :: cs.take n)⟩ :: ·) := by
  rw [lexFrom]
  simp only [h]

/-- No token begins here. -/
theorem lexFrom_of_unexpected (h : piece c cs = (.unexpected, n)) (offset : Nat) :
    lexFrom offset (c :: cs) = .error ⟨⟨offset, offset + byteLength (c :: cs.take n)⟩,
      String.ofList (c :: cs.take n)⟩ := by
  rw [lexFrom]
  simp only [h]

namespace CutInto

theorem refl (cs : List Char) : CutInto cs [] cs := by
  intro offset
  refine ⟨[], offset, rfl, ?_⟩
  cases lexFrom offset cs <;> rfl

theorem trans (h : CutInto cs tokens rest) (hrest : CutInto rest others more) :
    CutInto cs (tokens ++ others) more := by
  intro offset
  obtain ⟨lexemes, offset', htokens, hcut⟩ := h offset
  obtain ⟨next, offset'', hothers, hnext⟩ := hrest offset'
  refine ⟨lexemes ++ next, offset'', by rw [List.map_append, htokens, hothers], ?_⟩
  rw [hcut, hnext]
  cases lexFrom offset'' more with
  | error e => rfl
  | ok ls => exact congrArg Except.ok (List.append_assoc ..).symm

/-- A piece that is skipped. -/
theorem blank (h : piece c cs = (.blank, n)) : CutInto (c :: cs) [] (cs.drop n) := by
  intro offset
  refine ⟨[], offset + byteLength (c :: cs.take n), rfl, ?_⟩
  rw [lexFrom]
  simp only [h]
  cases lexFrom _ (cs.drop n) <;> rfl

/-- A piece that is a token. -/
theorem token (h : piece c cs = (.token t, n)) : CutInto (c :: cs) [t] (cs.drop n) := by
  intro offset
  refine ⟨[⟨t, offset, offset + byteLength (c :: cs.take n)⟩],
    offset + byteLength (c :: cs.take n), rfl, ?_⟩
  rw [lexFrom_of_token h]
  rfl

/-- All characters are cut. -/
theorem lexFrom_eq_ok (h : CutInto cs tokens []) (offset : Nat) :
    ∃ lexemes, lexFrom offset cs = .ok lexemes ∧ lexemes.map Lexeme.token = tokens := by
  obtain ⟨lexemes, offset', htokens, hcut⟩ := h offset
  refine ⟨lexemes, ?_, htokens⟩
  rw [hcut, lexFrom]
  exact congrArg Except.ok (List.append_nil _)

/-- What is left has an error. -/
theorem lexFrom_error (h : CutInto cs tokens rest)
    (hrest : ∀ offset, ∃ e, lexFrom offset rest = .error e) (offset : Nat) :
    ∃ e, lexFrom offset cs = .error e := by
  obtain ⟨lexemes, offset', -, hcut⟩ := h offset
  obtain ⟨e, he⟩ := hrest offset'
  exact ⟨e, by rw [hcut, he]; rfl⟩

end CutInto

/-! ## Classes of characters -/

section

variable {p : Char → Bool}

theorem ne_of_test (hc : p c = true) {d : Char} (hd : p d = false) : c ≠ d := by
  rintro rfl
  rw [hd] at hc
  contradiction

/-- A character of a class without blanks is no blank. -/
theorem isBlank_of_test (hc : p c = true) (hspace : p ' ' = false) (htab : p '\t' = false)
    (hreturn : p '\r' = false) : isBlank c = false := by
  simp [isBlank, ne_of_test hc hspace, ne_of_test hc htab, ne_of_test hc hreturn]

end

/-! ## Words -/

/-- The piece of a character that a name begins with. -/
theorem piece_nameStart (hc : isNameStart c) (cs : List Char) :
    piece c cs = namePiece (c :: cs.takeWhile isNamePart) (cs.dropWhile isNamePart) := by
  rw [piece, if_neg (ne_of_test hc rfl), isBlank_of_test hc rfl rfl rfl,
    if_neg Bool.false_ne_true, if_neg (ne_of_test hc rfl), if_pos hc]

/-- A name ends at the first character that cannot be part of it, unless that is a colon. -/
theorem CutInto.word (hc : isNameStart c) (hcs : ∀ d ∈ cs, isNamePart d) {d : Char}
    (hd : isNamePart d = false) (hcolon : d ≠ ':') (rest : List Char) :
    CutInto (c :: cs ++ d :: rest) [.word (String.ofList (c :: cs))] (d :: rest) := by
  obtain ⟨htake, hdrop⟩ := takeWhile_append_cons hcs hd rest
  have hpiece : piece c (cs ++ d :: rest) =
      (.token (.word (String.ofList (c :: cs))), cs.length) := by
    rw [piece_nameStart hc, htake, hdrop, namePiece]
    · rfl
    · rintro more h
      exact hcolon (List.cons.inj h).1
  have hcut := CutInto.token hpiece
  rwa [List.drop_left] at hcut

/-! ## Newlines and spaces -/

theorem CutInto.newline (rest : List Char) : CutInto ('\n' :: rest) [.newline] rest :=
  CutInto.token (n := 0) rfl

theorem CutInto.space (rest : List Char) : CutInto (' ' :: rest) [] rest :=
  CutInto.blank (n := 0) rfl

/-! ## Numerals -/

theorem digitsLength_append_cons {ds : List Char} (hds : ∀ d ∈ ds, d.isDigit)
    (hc : c.isDigit = false) (rest : List Char) : digitsLength (ds ++ c :: rest) = ds.length := by
  rw [digitsLength, (takeWhile_append_cons hds hc rest).1]

/-- No exponent begins with a newline. -/
theorem exponentLength_newline (rest : List Char) : exponentLength ('\n' :: rest) = 0 := by
  rw [exponentLength]
  exact if_neg fun h => absurd h.1 (by decide)

/-- A numeral on its own line is as long as it can be. -/
theorem numeralLength_of_plain {cs : List Char} (h : PlainNumeral cs) (rest : List Char) :
    numeralLength (cs ++ '\n' :: rest) = cs.length := by
  cases h with
  | whole hds hdigits =>
    have hlength : cs.length ≠ 0 := by simpa using hds
    have hplaces : placesLength ('\n' :: rest) = 0 := rfl
    rw [numeralLength, digitsLength_append_cons hdigits rfl, if_neg hlength,
      List.drop_left, hplaces, Nat.add_zero, List.drop_left, exponentLength_newline,
      Nat.add_zero]
  | @places ds es hds hdigits hes hplaces =>
    have hlength : ds.length ≠ 0 := by simpa using hds
    have hlength' : es.length ≠ 0 := by simpa using hes
    have hpoint : placesLength ('.' :: (es ++ '\n' :: rest)) = 1 + es.length := by
      rw [placesLength, digitsLength_append_cons hplaces rfl, if_neg hlength']
    have hdrop : (ds ++ '.' :: (es ++ '\n' :: rest)).drop (ds.length + (1 + es.length)) =
        '\n' :: rest := by
      rw [← List.drop_drop, List.drop_left, Nat.add_comm 1, List.drop_succ_cons, List.drop_left]
    rw [List.append_assoc, List.cons_append, numeralLength,
      digitsLength_append_cons hdigits rfl, if_neg hlength, List.drop_left, hpoint, hdrop,
      exponentLength_newline, Nat.add_zero, List.length_append, List.length_cons, Nat.add_comm 1]

/-- The piece of a character that a numeral begins with. -/
theorem piece_digit (hc : c.isDigit) (cs : List Char) :
    piece c cs = (.token (.number (String.ofList ((c :: cs).take (numeralLength (c :: cs))))),
      numeralLength (c :: cs) - 1) := by
  have hname : isNameStart c = false := by
    have hletter : c.isAlpha = false := by
      grind [Char.isDigit, Char.isAlpha, Char.isUpper, Char.isLower]
    simp [isNameStart, hletter, ne_of_test hc (d := '_') rfl]
  rw [piece, if_neg (ne_of_test hc rfl), isBlank_of_test hc rfl rfl rfl,
    if_neg Bool.false_ne_true, if_neg (ne_of_test hc rfl), hname, if_neg Bool.false_ne_true,
    if_pos hc]

/-- An unsigned numeral on its own line. -/
theorem CutInto.numeral {cs : List Char} (h : PlainNumeral cs) (rest : List Char) :
    CutInto (cs ++ '\n' :: rest) [.number (String.ofList cs)] ('\n' :: rest) := by
  have hlength := numeralLength_of_plain h rest
  obtain ⟨d, ds, rfl, hd⟩ := h.exists_cons
  have hpiece := piece_digit hd (ds ++ '\n' :: rest)
  rw [← List.cons_append, hlength, List.take_left] at hpiece
  have hcut := CutInto.token hpiece
  rwa [List.length_cons, Nat.add_sub_cancel, List.drop_left] at hcut

/-- A numeral with a minus on its own line. -/
theorem CutInto.negativeNumeral {cs : List Char} (h : PlainNumeral cs) (rest : List Char) :
    CutInto ('-' :: cs ++ '\n' :: rest) [.number (String.ofList ('-' :: cs))] ('\n' :: rest) := by
  have hlength := numeralLength_of_plain h rest
  have hne : cs.length ≠ 0 := by
    obtain ⟨d, ds, rfl, -⟩ := h.exists_cons
    exact Nat.succ_ne_zero _
  have hpiece : piece '-' (cs ++ '\n' :: rest) =
      (.token (.number (String.ofList ('-' :: cs))), cs.length) := by
    show (let length := numeralLength (cs ++ '\n' :: rest)
      if length = 0 then (Piece.token .minus, 0)
      else (.token (.number (String.ofList ('-' :: (cs ++ '\n' :: rest).take length))), length)) = _
    rw [hlength, if_neg hne, List.take_left]
  have hcut := CutInto.token hpiece
  rwa [List.drop_left] at hcut

end StackMachine.Listing
