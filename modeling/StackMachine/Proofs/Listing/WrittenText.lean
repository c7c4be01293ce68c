import StackMachine.Proofs.Listing.Patterns

/-!
# Texts written as literals

Every text can be written as a literal, and what is written is read back as that text, whatever
comes after it (`literal_read_back`). Where a literal ends is found without reading its escapes, and
what it stands for is read without looking for its end. The two agree because both take a backslash
with the character after it: of a run of backslashes each odd one begins an escape. So a literal
that ends is refused only for an escape that is not known, and then as a whole.
-/

namespace StackMachine.Listing

/-! ## Writing -/

/-- The escapes: the character after the backslash, and the character that they stand for. -/
def escapes : List (Char × Char) :=
  [('n', '\n'), ('t', '\t'), ('r', '\r'), ('0', '\x00'), ('"', '"'), ('\\', '\\')]

/-- The ways to write a text in a literal: each character by its escape or as it stands. A newline,
a quote and a backslash do not stand as they are, and a tab, a carriage return and a NUL can be
written both ways. -/
inductive WrittenText : List Char → List Char → Prop
  | nil : WrittenText [] []
  | escape {c d : Char} {s body : List Char} (hc : (d, c) ∈ escapes) (hs : WrittenText s body) :
    WrittenText (c :: s) ('\\' :: d :: body)
  | plain {c : Char} {s body : List Char} (hquote : c ≠ '"') (hslash : c ≠ '\\')
    (hnewline : c ≠ '\n') (hs : WrittenText s body) : WrittenText (c :: s) (c :: body)

/-- A body between quotes. -/
def literal (body : List Char) : List Char := '"' :: (body ++ ['"'])

/-! ## Escapes of a body -/

/-- The number of backslashes that characters end with. -/
def slashesBehind (before : List Char) : Nat := (before.reverse.takeWhile (· = '\\')).length

/-- Every backslash that begins an escape begins a known one. A backslash begins an escape unless it
is the second character of one, which is so when an odd number of backslashes stand right before it.
-/
def EscapesKnown (body : List Char) : Prop :=
  ∀ before after, body = before ++ '\\' :: after → Even (slashesBehind before) →
    ∃ d c more, after = d :: more ∧ (d, c) ∈ escapes

variable {c d : Char} {s cs body rest : List Char}

theorem escaped?_eq_some_iff : escaped? d = some c ↔ (d, c) ∈ escapes := by
  unfold escaped?
  split <;> simp_all [escapes, eq_comm]

theorem slashesBehind_cons (hc : c ≠ '\\') (before : List Char) :
    slashesBehind (c :: before) = slashesBehind before := by
  rw [slashesBehind, List.reverse_cons, List.takeWhile_append]
  split <;> simp_all [slashesBehind]

/-- The backslashes of an escape come in a pair, or a character stands behind them. -/
theorem even_slashesBehind_escape (c : Char) (before : List Char) :
    Even (slashesBehind ('\\' :: c :: before)) ↔ Even (slashesBehind before) := by
  by_cases hc : c = '\\'
  · subst hc
    have hreverse : ('\\' :: '\\' :: before).reverse = before.reverse ++ ['\\', '\\'] := by simp
    rw [slashesBehind, hreverse, List.takeWhile_append]
    split
    · next hall =>
      rw [List.length_append, ← hall, slashesBehind]
      simp [Nat.even_add]
    · rfl
  · have hreverse : ('\\' :: c :: before).reverse = before.reverse ++ [c, '\\'] := by simp
    rw [slashesBehind, hreverse, List.takeWhile_append]
    split <;> simp_all [slashesBehind]

theorem escapesKnown_nil : EscapesKnown [] := by
  intro before after h
  simp at h

theorem escapesKnown_cons_iff (hc : c ≠ '\\') : EscapesKnown (c :: cs) ↔ EscapesKnown cs := by
  constructor
  · intro h before after hcs heven
    exact h (c :: before) after (by rw [hcs]; rfl) (by rwa [slashesBehind_cons hc])
  · rintro h (_ | ⟨d, before⟩) after hcs heven
    · exact absurd (List.cons.inj hcs).1 hc
    · obtain ⟨rfl, hrest⟩ := List.cons.inj hcs
      exact h before after hrest (by rwa [slashesBehind_cons hc] at heven)

theorem escapesKnown_escape_iff :
    EscapesKnown ('\\' :: d :: cs) ↔ (∃ c, (d, c) ∈ escapes) ∧ EscapesKnown cs := by
  constructor
  · intro h
    constructor
    · obtain ⟨d', c, more, hmore, hc⟩ := h [] (d :: cs) rfl (by decide)
      obtain ⟨rfl, -⟩ := List.cons.inj hmore
      exact ⟨c, hc⟩
    · intro before after hcs heven
      exact h ('\\' :: d :: before) after (by rw [hcs]; rfl)
        ((even_slashesBehind_escape d before).2 heven)
  · rintro ⟨⟨c, hc⟩, h⟩ (_ | ⟨e, _ | ⟨e', before⟩⟩) after hcs heven
    · obtain rfl := (List.cons.inj hcs).2
      exact ⟨d, c, cs, rfl, hc⟩
    · -- The second character of the escape stands behind one backslash.
      obtain ⟨rfl, -⟩ := List.cons.inj hcs
      exact absurd heven (by decide)
    · simp only [List.cons_append, List.cons.injEq] at hcs
      obtain ⟨rfl, rfl, hcs⟩ := hcs
      exact h before after hcs ((even_slashesBehind_escape d before).1 heven)

/-! ## Reading what was written -/

/-- Every text can be written. -/
theorem exists_writtenText (s : List Char) : ∃ body, WrittenText s body := by
  induction s with
  | nil => exact ⟨[], .nil⟩
  | cons c s ih =>
    obtain ⟨body, hs⟩ := ih
    by_cases hplain : c ≠ '"' ∧ c ≠ '\\' ∧ c ≠ '\n'
    · exact ⟨c :: body, .plain hplain.1 hplain.2.1 hplain.2.2 hs⟩
    · have hspecial : ∃ d, (d, c) ∈ escapes := by
        simp only [ne_eq, not_and_or, not_not] at hplain
        rcases hplain with rfl | rfl | rfl
        · exact ⟨'"', by decide⟩
        · exact ⟨'\\', by decide⟩
        · exact ⟨'n', by decide⟩
      obtain ⟨d, hd⟩ := hspecial
      exact ⟨'\\' :: d :: body, .escape hd hs⟩

theorem WrittenText.isBody (h : WrittenText s body) : IsBody body := by
  induction h with
  | nil => exact .nil
  | escape hc _ ih => exact .escape (ne_newline_of_escaped? (escaped?_eq_some_iff.2 hc)) ih
  | plain hquote hslash hnewline _ ih => exact .plain hquote hslash hnewline ih

theorem WrittenText.unescape?_eq (h : WrittenText s body) : unescape? body = some s := by
  induction h with
  | nil => rfl
  | escape hc _ ih =>
    rw [unescape?, escaped?_eq_some_iff.2 hc, ih]
    rfl
  | plain hquote hslash hnewline _ ih =>
    rw [unescape?_cons hslash, ih]
    rfl

/-- What is read was written, and only what was written is read. -/
theorem writtenText_iff : WrittenText s body ↔ IsBody body ∧ unescape? body = some s := by
  refine ⟨fun h => ⟨h.isBody, h.unescape?_eq⟩, ?_⟩
  rintro ⟨hbody, hs⟩
  induction hbody generalizing s with
  | nil =>
    obtain rfl := Option.some.inj hs
    exact .nil
  | plain hquote hslash hnewline _ ih =>
    rw [unescape?_cons hslash] at hs
    obtain ⟨more, hmore, rfl⟩ := Option.map_eq_some_iff.1 hs
    exact .plain hquote hslash hnewline (ih hmore)
  | escape hnewline _ ih =>
    rw [unescape?] at hs
    obtain ⟨c, hc, hs⟩ := Option.bind_eq_some_iff.1 hs
    obtain ⟨more, hmore, hs⟩ := Option.bind_eq_some_iff.1 hs
    obtain rfl := Option.some.inj hs
    exact .escape (escaped?_eq_some_iff.1 hc) (ih hmore)

/-- **A body stands for a text** exactly when all its escapes are known. -/
theorem IsBody.exists_writtenText_iff (h : IsBody body) :
    (∃ s, WrittenText s body) ↔ EscapesKnown body := by
  simp only [writtenText_iff, h, true_and]
  induction h with
  | nil => exact iff_of_true ⟨[], rfl⟩ escapesKnown_nil
  | plain hquote hslash hnewline _ ih =>
    rw [escapesKnown_cons_iff hslash, ← ih]
    simp [unescape?_cons hslash]
  | @escape d cs hnewline _ ih =>
    rw [escapesKnown_escape_iff, ← ih]
    simp [unescape?, escaped?_eq_some_iff, Option.bind_eq_some_iff]

/-! ## Literals among tokens -/

theorem IsBody.piece_eq (h : IsBody body) (rest : List Char) :
    piece '"' (body ++ '"' :: rest) =
      ((unescape? body).elim .unexpected fun s => .token (.text (String.ofList s)),
        body.length + 1) := by
  rw [piece_quote, literalPiece_of_closed (h.literalEnd_eq rest)]

theorem literal_append (body rest : List Char) :
    literal body ++ rest = '"' :: (body ++ '"' :: rest) := by
  simp [literal]

/-- What a literal's piece takes is the literal, and what it leaves is what comes after it. -/
theorem cons_take_eq_literal (body rest : List Char) :
    '"' :: (body ++ '"' :: rest).take (body.length + 1) = literal body ∧
      (body ++ '"' :: rest).drop (body.length + 1) = rest := by
  constructor
  · rw [List.take_add, List.take_left, List.drop_left]
    rfl
  · rw [← List.drop_drop, List.drop_left]
    rfl

/-- No pattern takes more than the literal. -/
theorem IsBody.longest (h : IsBody body) (rest : List Char) : Longest (literal body) rest := by
  have hlongest := @longest_piece '"' (body ++ '"' :: rest) rfl
  obtain ⟨htake, hdrop⟩ := cons_take_eq_literal body rest
  rwa [h.piece_eq, htake, hdrop] at hlongest

/-- A body ends where a quote after it would end the literal. -/
theorem isBody_iff : IsBody body ↔ literalEnd (body ++ ['"']) = .closed body.length := by
  refine ⟨fun h => h.literalEnd_eq [], fun h => ?_⟩
  have hfits := literalEnd_fits (body ++ ['"'])
  rw [h] at hfits
  generalize hlength : body.length = length at hfits
  generalize hcs : body ++ ['"'] = cs at hfits
  cases hfits with
  | closed hbody =>
    obtain ⟨rfl, -⟩ := List.append_inj hcs hlength
    exact hbody

instance : DecidablePred IsBody := fun _ => decidable_of_iff _ isBody_iff.symm

instance (s body : List Char) : Decidable (WrittenText s body) :=
  decidable_of_iff _ writtenText_iff.symm

theorem WrittenText.lexFrom_eq (h : WrittenText s body) (offset : Nat) (rest : List Char) :
    lexFrom offset (literal body ++ rest) =
      (lexFrom (offset + byteLength (literal body)) rest).map
        (⟨.text (String.ofList s), offset, offset + byteLength (literal body)⟩ :: ·) := by
  have hpiece := h.isBody.piece_eq rest
  rw [h.unescape?_eq] at hpiece
  obtain ⟨htake, hdrop⟩ := cons_take_eq_literal body rest
  rw [literal_append, lexFrom_of_token hpiece, htake, hdrop]

theorem IsBody.lexFrom_eq_error (h : IsBody body) (hunknown : ¬EscapesKnown body) (offset : Nat)
    (rest : List Char) :
    lexFrom offset (literal body ++ rest) =
      .error ⟨⟨offset, offset + byteLength (literal body)⟩, String.ofList (literal body)⟩ := by
  have hnone : unescape? body = none := by
    refine Option.eq_none_iff_forall_ne_some.2 fun s hs => hunknown ?_
    exact h.exists_writtenText_iff.1 ⟨s, writtenText_iff.2 ⟨h, hs⟩⟩
  have hpiece := h.piece_eq rest
  rw [hnone] at hpiece
  obtain ⟨htake, -⟩ := cons_take_eq_literal body rest
  rw [literal_append, lexFrom_of_unexpected hpiece, htake]

/-- **Texts are read back from the literals that they are written as.**

* Every text can be written as the body of a literal.
* However it is written, and whatever comes after the literal, the literal is the longest of all
  patterns there. It makes one token, which is the text and takes the whole literal; after it come
  the tokens of what comes after the literal.
* A literal that ends, with anything after it that can be read, is accepted exactly when all its
  escapes are known; if one is not, nothing of the literal is a token, whatever comes after it. -/
theorem literal_read_back :
    (∀ s : String, ∃ body, WrittenText s.toList body) ∧
    (∀ (s : String) (body : List Char), WrittenText s.toList body →
      ∀ (offset : Nat) (rest : List Char), Longest (literal body) rest ∧
        lexFrom offset (literal body ++ rest) =
          (lexFrom (offset + byteLength (literal body)) rest).map
            (⟨.text s, offset, offset + byteLength (literal body)⟩ :: ·)) ∧
    ∀ body, IsBody body → ∀ (offset : Nat) (rest : List Char),
      (∀ more, lexFrom (offset + byteLength (literal body)) rest = .ok more →
        ((∃ lexemes, lexFrom offset (literal body ++ rest) = .ok lexemes) ↔ EscapesKnown body)) ∧
      (¬EscapesKnown body → lexFrom offset (literal body ++ rest) =
        .error ⟨⟨offset, offset + byteLength (literal body)⟩, String.ofList (literal body)⟩) := by
  refine ⟨fun s => exists_writtenText s.toList, fun s body hwritten offset rest => ?_,
    fun body hbody offset rest => ⟨fun more hmore => ?_, fun hunknown => ?_⟩⟩
  · have hlex := hwritten.lexFrom_eq offset rest
    rw [String.ofList_toList] at hlex
    exact ⟨hwritten.isBody.longest rest, hlex⟩
  · constructor
    · rintro ⟨lexemes, hlexemes⟩
      by_contra hunknown
      rw [hbody.lexFrom_eq_error hunknown] at hlexemes
      contradiction
    · intro hknown
      obtain ⟨s, hs⟩ := hbody.exists_writtenText_iff.2 hknown
      rw [hs.lexFrom_eq, hmore]
      exact ⟨_, rfl⟩
  · exact hbody.lexFrom_eq_error hunknown offset rest

/-- Three backslashes before a quote that does not end the literal, a newline, a tab as it stands, a
NUL and a character of two bytes, with a quote in the comment after the literal; and three
backslashes of which the last begins no known escape. -/
theorem literal_read_back_after_slashes :
    let s := "\\\"\n\t\x00é"
    let body := "\\\\\\\"\\n\t\\0é".toList
    let unknown := "\\\\\\q".toList
    let rest := " ; \"".toList
    (WrittenText s.toList body ∧ Longest (literal body) rest ∧
      lexFrom 5 (literal body ++ rest) = .ok [⟨.text s, 5, 18⟩] ∧ EscapesKnown body) ∧
    (IsBody unknown ∧ ¬EscapesKnown unknown ∧
      lexFrom 5 (literal unknown ++ rest) = .error ⟨⟨5, 11⟩, "\"\\\\\\q\""⟩) := by
  intro s body unknown rest
  obtain ⟨-, hread, haccepted⟩ := literal_read_back
  have hwritten : WrittenText s.toList body := by decide
  have hunknown : IsBody unknown := by decide
  have hknown : EscapesKnown body := by
    refine ((haccepted body hwritten.isBody 5 rest).1 [] (by decide +kernel)).1 ?_
    exact ⟨[⟨.text s, 5, 18⟩], by decide +kernel⟩
  have hrejected : ¬EscapesKnown unknown := by
    intro hknown
    obtain ⟨lexemes, hlexemes⟩ :=
      ((haccepted unknown hunknown 5 rest).1 [] (by decide +kernel)).2 hknown
    have herror : lexFrom 5 (literal unknown ++ rest) =
        .error ⟨⟨5, 11⟩, "\"\\\\\\q\""⟩ := by decide +kernel
    rw [herror] at hlexemes
    contradiction
  obtain ⟨hlongest, hlex⟩ := hread s body hwritten 5 rest
  refine ⟨⟨hwritten, hlongest, ?_, hknown⟩, hunknown, hrejected,
    (haccepted unknown hunknown 5 rest).2 hrejected⟩
  rw [hlex]
  decide +kernel

end StackMachine.Listing
