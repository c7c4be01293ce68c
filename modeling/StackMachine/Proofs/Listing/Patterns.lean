import StackMachine.Proofs.Listing.Cutting
import StackMachine.Proofs.Listing.Literals

/-!
# Patterns of tokens

What each kind of token looks like, and what may stand between tokens. The piece that characters
begin with is of one of these patterns (`piece_fits`), and where it is a token, nothing longer that
begins there is of any pattern (`longest_of_token`): a name is not cut short, a numeral takes its
places and its exponent, and a colon makes a label of the name before it.
-/

namespace StackMachine.Listing

/-! ## Patterns -/

/-- A letter or an underscore, and then letters, digits, underscores and points. -/
inductive IsName : List Char → Prop
  | intro {c : Char} {cs : List Char} (hc : isNameStart c) (hcs : ∀ d ∈ cs, isNamePart d) :
    IsName (c :: cs)

/-- One digit or more. -/
def IsDigits (cs : List Char) : Prop := cs ≠ [] ∧ ∀ c ∈ cs, c.isDigit

/-- Nothing, a plus or a minus. -/
def IsSign (cs : List Char) : Prop := cs = [] ∨ cs = ['+'] ∨ cs = ['-']

/-- Nothing, or a point with digits after it. -/
inductive IsPlaces : List Char → Prop
  | none : IsPlaces []
  | point {ds : List Char} (hds : IsDigits ds) : IsPlaces ('.' :: ds)

/-- Nothing, or the letter `e` in either case, perhaps a sign, and digits. -/
inductive IsExponent : List Char → Prop
  | none : IsExponent []
  | power {c : Char} {sign ds : List Char} (hc : c = 'e' ∨ c = 'E') (hsign : IsSign sign)
    (hds : IsDigits ds) : IsExponent (c :: (sign ++ ds))

/-- Digits, perhaps with places and perhaps with an exponent. -/
inductive IsUnsigned : List Char → Prop
  | parts {whole places exponent : List Char} (hwhole : IsDigits whole) (hplaces : IsPlaces places)
    (hexponent : IsExponent exponent) : IsUnsigned (whole ++ (places ++ exponent))

/-- An unsigned numeral, perhaps after a minus. -/
inductive IsNumeral : List Char → Prop
  | unsigned {cs : List Char} (h : IsUnsigned cs) : IsNumeral cs
  | negative {cs : List Char} (h : IsUnsigned cs) : IsNumeral ('-' :: cs)

/-- Any characters but newlines, with a backslash before each quote and before whatever a backslash
stands before. -/
inductive IsBody : List Char → Prop
  | nil : IsBody []
  | plain {c : Char} {cs : List Char} (hquote : c ≠ '"') (hslash : c ≠ '\\') (hnewline : c ≠ '\n')
    (hcs : IsBody cs) : IsBody (c :: cs)
  | escape {c : Char} {cs : List Char} (hnewline : c ≠ '\n') (hcs : IsBody cs) :
    IsBody ('\\' :: c :: cs)

/-- Characters that a listing may be cut into: those of a token, blanks or a comment. -/
inductive Matches : List Char → Prop
  | blanks {cs : List Char} (hne : cs ≠ []) (hcs : ∀ c ∈ cs, isBlank c) : Matches cs
  | comment {body : List Char} (hbody : '\n' ∉ body) : Matches (';' :: body)
  | label {name : List Char} (hname : IsName name) : Matches (name ++ [':'])
  | word {name : List Char} (hname : IsName name) : Matches name
  | number {cs : List Char} (hcs : IsNumeral cs) : Matches cs
  | literal {body : List Char} (hbody : IsBody body) : Matches ('"' :: (body ++ ['"']))
  | minus : Matches ['-']
  | newline : Matches ['\n']

/-- A token is what characters spell: a label without its colon, a name or a numeral as it stands,
and a literal with its escapes replaced. -/
inductive Token.SpelledBy : Token → List Char → Prop
  | label {name : List Char} (hname : IsName name) :
    SpelledBy (.labelDef (String.ofList name)) (name ++ [':'])
  | word {name : List Char} (hname : IsName name) : SpelledBy (.word (String.ofList name)) name
  | number {cs : List Char} (hcs : IsNumeral cs) : SpelledBy (.number (String.ofList cs)) cs
  | text {body s : List Char} (hbody : IsBody body) (hs : unescape? body = some s) :
    SpelledBy (.text (String.ofList s)) ('"' :: (body ++ ['"']))
  | minus : SpelledBy .minus ['-']
  | newline : SpelledBy .newline ['\n']

/-- Of the characters that stand here, none of a pattern are more than the first ones. -/
def Longest (cs rest : List Char) : Prop :=
  ∀ more, Matches more → more <+: cs ++ rest → more.length ≤ cs.length

variable {c : Char} {cs ds name body rest : List Char} {t : Token}

/-! ## Runs of characters -/

theorem take_length_takeWhile (p : Char → Bool) (cs : List Char) :
    cs.take (cs.takeWhile p).length = cs.takeWhile p :=
  (List.prefix_iff_eq_take.1 (List.takeWhile_prefix p)).symm

theorem drop_length_takeWhile (p : Char → Bool) (cs : List Char) :
    cs.drop (cs.takeWhile p).length = cs.dropWhile p := by
  have h := List.take_append_drop (cs.takeWhile p).length cs
  rw [take_length_takeWhile] at h
  exact List.append_cancel_left (h.trans List.takeWhile_append_dropWhile.symm)

/-! ## Numerals -/

theorem isDigits_take (h : digitsLength cs ≠ 0) : IsDigits (cs.take (digitsLength cs)) := by
  rw [digitsLength, take_length_takeWhile]
  refine ⟨fun hnil => h ?_, fun c hc => List.mem_takeWhile_imp hc⟩
  rw [digitsLength, hnil, List.length_nil]

theorem isSign_take (cs : List Char) : IsSign (cs.take (signLength cs)) := by
  unfold signLength
  split <;> simp [IsSign]

theorem isPlaces_take (cs : List Char) : IsPlaces (cs.take (placesLength cs)) := by
  unfold placesLength
  split
  · split
    · exact .none
    · next hdigits =>
      rw [Nat.add_comm, List.take_succ_cons]
      exact .point (isDigits_take hdigits)
  · exact .none

theorem isExponent_take (cs : List Char) : IsExponent (cs.take (exponentLength cs)) := by
  cases cs with
  | nil => exact .none
  | cons c cs =>
    unfold exponentLength
    dsimp only
    split
    · next h =>
      rw [Nat.add_assoc, Nat.add_comm, List.take_succ_cons, List.take_add]
      exact .power h.1 (isSign_take cs) (isDigits_take h.2)
    · exact .none

/-- What is taken as a numeral is one. -/
theorem isUnsigned_take (h : numeralLength cs ≠ 0) : IsUnsigned (cs.take (numeralLength cs)) := by
  unfold numeralLength at h ⊢
  dsimp only at h ⊢
  split at h
  · contradiction
  · next hdigits =>
    rw [if_neg hdigits, Nat.add_assoc, List.take_add, List.take_add, ← List.drop_drop]
    exact .parts (isDigits_take hdigits) (isPlaces_take _) (isExponent_take _)

/-! ## The longest numeral -/

theorem IsDigits.exists_cons (h : IsDigits ds) : ∃ d more, ds = d :: more ∧ d.isDigit := by
  obtain ⟨d, more, rfl⟩ := List.exists_cons_of_ne_nil h.1
  exact ⟨d, more, rfl, h.2 d List.mem_cons_self⟩

/-- All the digits that stand here are counted. -/
theorem IsDigits.length_le (h : IsDigits ds) (rest : List Char) :
    ds.length ≤ digitsLength (ds ++ rest) := by
  rw [digitsLength, List.takeWhile_append_of_pos h.2, List.length_append]
  exact Nat.le_add_right _ _

theorem IsDigits.digitsLength_ne_zero (h : IsDigits ds) (rest : List Char) :
    digitsLength (ds ++ rest) ≠ 0 := by
  have hle := h.length_le rest
  have hpos := List.length_pos_iff.2 h.1
  omega

theorem numeralLength_ne_zero (hc : c.isDigit) (cs : List Char) : numeralLength (c :: cs) ≠ 0 := by
  have hdigit : IsDigits [c] := ⟨List.cons_ne_nil c [], by simpa⟩
  have hdigits : digitsLength (c :: cs) ≠ 0 := hdigit.digitsLength_ne_zero cs
  rw [numeralLength, if_neg hdigits]
  omega

theorem IsSign.signLength_eq (h : IsSign cs) (hds : IsDigits ds) (rest : List Char) :
    signLength (cs ++ (ds ++ rest)) = cs.length := by
  rcases h with rfl | rfl | rfl
  · obtain ⟨d, more, rfl, hd⟩ := hds.exists_cons
    have hplus : d ≠ '+' := ne_of_test hd rfl
    have hminus : d ≠ '-' := ne_of_test hd rfl
    simp only [List.nil_append, List.cons_append, signLength, List.length_nil]
    split <;> simp_all
  · rfl
  · rfl

theorem IsExponent.length_le (h : IsExponent cs) (rest : List Char) :
    cs.length ≤ exponentLength (cs ++ rest) := by
  cases h with
  | none => exact Nat.zero_le _
  | @power c sign ds hc hsign hds =>
    have hle := hds.length_le rest
    rw [List.cons_append, List.append_assoc, exponentLength]
    rw [hsign.signLength_eq hds, List.drop_left, if_pos ⟨hc, hds.digitsLength_ne_zero rest⟩,
      List.length_cons, List.length_append]
    omega

/-- An exponent begins with no digit and no point. -/
theorem IsExponent.exists_cons (h : IsExponent cs) (hne : cs ≠ []) :
    ∃ c more, cs = c :: more ∧ c.isDigit = false ∧ c ≠ '.' := by
  cases h with
  | none => contradiction
  | power hc hsign hds => rcases hc with rfl | rfl <;> exact ⟨_, _, rfl, rfl, by decide⟩

/-- Places and an exponent that stand here are counted. -/
theorem IsPlaces.length_le {places exponent : List Char} (hplaces : IsPlaces places)
    (hexponent : IsExponent exponent) (rest : List Char) :
    let cs := places ++ (exponent ++ rest)
    (places ++ exponent).length ≤ placesLength cs + exponentLength (cs.drop (placesLength cs)) := by
  intro cs
  rw [List.length_append]
  cases hplaces with
  | none =>
    have hle := hexponent.length_le rest
    have hnone : placesLength cs = 0 ∨ exponent = [] := by
      by_cases hne : exponent = []
      · exact .inr hne
      · obtain ⟨c, more, rfl, -, hpoint⟩ := hexponent.exists_cons hne
        left
        simp only [cs, List.nil_append, List.cons_append, placesLength]
        split <;> simp_all
    rcases hnone with hnone | rfl
    · rw [hnone, List.drop_zero, List.length_nil]
      simpa [cs] using hle
    · exact Nat.zero_le _
  | @point ds hds =>
    have hle := hds.length_le (exponent ++ rest)
    have hpoint : placesLength cs = 1 + digitsLength (ds ++ (exponent ++ rest)) :=
      if_neg (hds.digitsLength_ne_zero _)
    rw [hpoint, List.length_cons]
    by_cases hne : exponent = []
    · rw [hne, List.length_nil]
      rw [hne] at hle
      omega
    · -- What follows the places is no digit, so they end where the exponent begins.
      have hdigits : digitsLength (ds ++ (exponent ++ rest)) = ds.length := by
        obtain ⟨c, more, rfl, hdigit, -⟩ := hexponent.exists_cons hne
        exact digitsLength_append_cons hds.2 hdigit _
      have hdrop : cs.drop (1 + ds.length) = exponent ++ rest := by
        rw [Nat.add_comm]
        exact List.drop_left
      rw [hdigits, hdrop]
      have hexp := hexponent.length_le rest
      omega

theorem IsUnsigned.length_le (h : IsUnsigned cs) (rest : List Char) :
    cs.length ≤ numeralLength (cs ++ rest) := by
  obtain ⟨hwhole, hplaces, hexponent⟩ := h
  next whole places exponent =>
  have hle := hwhole.length_le ((places ++ exponent) ++ rest)
  rw [List.append_assoc, numeralLength]
  rw [if_neg (hwhole.digitsLength_ne_zero _), List.length_append]
  by_cases hnone : places ++ exponent = []
  · rw [hnone] at hle ⊢
    rw [List.length_nil]
    omega
  · have hdigits : digitsLength (whole ++ (places ++ exponent ++ rest)) = whole.length := by
      obtain ⟨c, more, hcons, hdigit⟩ :
          ∃ c more, places ++ exponent = c :: more ∧ c.isDigit = false := by
        cases hplaces with
        | none =>
          obtain ⟨c, more, rfl, hdigit, -⟩ := hexponent.exists_cons hnone
          exact ⟨c, more, rfl, hdigit⟩
        | point hds => exact ⟨_, _, rfl, rfl⟩
      rw [hcons]
      exact digitsLength_append_cons hwhole.2 hdigit _
    have hrest := hplaces.length_le hexponent rest
    rw [← List.append_assoc] at hrest
    rw [hdigits, List.drop_left, ← List.drop_drop, List.drop_left]
    dsimp only at hrest
    omega

/-- A numeral begins with a digit. -/
theorem IsUnsigned.exists_cons (h : IsUnsigned cs) : ∃ d more, cs = d :: more ∧ d.isDigit := by
  obtain ⟨hwhole, -, -⟩ := h
  obtain ⟨d, more, rfl, hd⟩ := hwhole.exists_cons
  exact ⟨d, _, rfl, hd⟩

/-- The piece of a minus: a numeral if one follows. -/
theorem piece_minus (cs : List Char) :
    piece '-' cs = if numeralLength cs = 0 then (.token .minus, 0)
      else (.token (.number (String.ofList ('-' :: cs.take (numeralLength cs)))),
        numeralLength cs) := rfl

/-! ## Literals -/

theorem piece_quote (cs : List Char) : piece '"' cs = literalPiece cs := rfl

/-- What is said of the end of a literal holds of the characters after its first quote. -/
inductive LiteralEnd.Fits : LiteralEnd → List Char → Prop
  | closed {body rest : List Char} (hbody : IsBody body) :
    Fits (.closed body.length) (body ++ '"' :: rest)
  | broken (body : List Char) {rest : List Char} (hbody : '\n' ∉ body) :
    Fits (.broken body.length) (body ++ rest)

theorem LiteralEnd.Fits.plain {e : LiteralEnd} (h : e.Fits cs) (hquote : c ≠ '"')
    (hslash : c ≠ '\\') (hnewline : c ≠ '\n') : (e.shift 1).Fits (c :: cs) := by
  cases h with
  | closed hbody =>
    rw [LiteralEnd.shift, Nat.add_comm]
    exact .closed (hbody.plain hquote hslash hnewline)
  | broken body hbody =>
    rw [LiteralEnd.shift, Nat.add_comm]
    exact .broken (c :: body) (by simp [hbody, Ne.symm hnewline])

theorem LiteralEnd.Fits.escape {e : LiteralEnd} (h : e.Fits cs) (hnewline : c ≠ '\n') :
    (e.shift 2).Fits ('\\' :: c :: cs) := by
  cases h with
  | closed hbody =>
    rw [LiteralEnd.shift, Nat.add_comm]
    exact .closed (hbody.escape hnewline)
  | broken body hbody =>
    rw [LiteralEnd.shift, Nat.add_comm]
    exact .broken ('\\' :: c :: body) (by simp [hbody, Ne.symm hnewline])

theorem literalEnd_fits (cs : List Char) : (literalEnd cs).Fits cs := by
  fun_induction literalEnd cs with
  | case1 => exact .broken [] nofun
  | case2 rest => exact .closed .nil
  | case3 rest => exact .broken [] nofun
  | case4 => exact .broken ['\\'] (by decide)
  | case5 rest => exact .broken ['\\'] (by decide)
  | case6 c rest hnewline ih => exact ih.escape hnewline
  | case7 c rest hquote hnewline hlast hbreak hescape ih =>
    refine ih.plain hquote ?_ hnewline
    rintro rfl
    cases rest with
    | nil => exact hlast rfl rfl
    | cons d rest => exact hescape d rest rfl rfl

/-- The body of a literal ends before the quote after it. -/
theorem IsBody.literalEnd_eq (h : IsBody body) (rest : List Char) :
    literalEnd (body ++ '"' :: rest) = .closed body.length := by
  induction h with
  | nil => rfl
  | plain hquote hslash hnewline _ ih =>
    rw [List.cons_append, literalEnd_cons hquote hslash hnewline, ih, LiteralEnd.shift,
      List.length_cons, Nat.add_comm]
  | escape hnewline _ ih =>
    rw [List.cons_append, List.cons_append, literalEnd_escape hnewline, ih, LiteralEnd.shift,
      List.length_cons, List.length_cons, Nat.add_comm]

theorem IsBody.newline_notMem (h : IsBody body) : '\n' ∉ body := by
  induction h with
  | nil => exact List.not_mem_nil
  | plain _ _ hnewline _ ih => simp [ih, Ne.symm hnewline]
  | escape hnewline _ ih => simp [ih, Ne.symm hnewline]

/-! ## The longest pattern -/

/-- **Nothing of a pattern is longer than the piece** that the characters begin with. -/
theorem Matches.length_le {more : List Char} (h : Matches more) (hmore : c :: cs = more ++ rest)
    (hblank : isBlank c = false) : more.length ≤ (piece c cs).2 + 1 := by
  cases h with
  | blanks hne hcs =>
    obtain ⟨d, ds, rfl⟩ := List.exists_cons_of_ne_nil hne
    obtain ⟨rfl, rfl⟩ := List.cons.inj hmore
    rw [hcs c List.mem_cons_self] at hblank
    contradiction
  | @comment body hbody =>
    rw [List.cons_append] at hmore
    obtain ⟨rfl, rfl⟩ := List.cons.inj hmore
    have hle : body.length ≤ ((body ++ rest).takeWhile (· ≠ '\n')).length := by
      rw [List.takeWhile_append_of_pos (by simpa using fun d hd => ne_of_mem_of_not_mem hd hbody),
        List.length_append]
      exact Nat.le_add_right _ _
    exact Nat.succ_le_succ hle
  | @label name hname =>
    obtain ⟨hd, hds⟩ := hname
    rw [List.cons_append, List.cons_append, List.append_assoc] at hmore
    obtain ⟨rfl, rfl⟩ := List.cons.inj hmore
    obtain ⟨htake, hdrop⟩ := takeWhile_append_cons hds (y := ':') rfl rest
    rw [piece_nameStart hd, List.singleton_append, htake, hdrop]
    simp [namePiece]
  | word hname =>
    obtain ⟨hd, hds⟩ := hname
    next d ds =>
    rw [List.cons_append] at hmore
    obtain ⟨rfl, rfl⟩ := List.cons.inj hmore
    have hle : ds.length ≤ ((ds ++ rest).takeWhile isNamePart).length := by
      rw [List.takeWhile_append_of_pos hds, List.length_append]
      exact Nat.le_add_right _ _
    rw [piece_nameStart hd]
    unfold namePiece
    split <;> simp only [List.length_cons] <;> omega
  | number hnumeral =>
    cases hnumeral with
    | unsigned h =>
      have hle := h.length_le rest
      obtain ⟨d, ds, rfl, hd⟩ := h.exists_cons
      rw [List.cons_append] at hmore hle
      obtain ⟨rfl, rfl⟩ := List.cons.inj hmore
      rw [piece_digit hd]
      dsimp only
      omega
    | negative h =>
      have hle := h.length_le rest
      obtain ⟨d, ds, hcons, -⟩ := h.exists_cons
      rw [List.cons_append] at hmore
      obtain ⟨rfl, rfl⟩ := List.cons.inj hmore
      have hlength := congrArg List.length hcons
      rw [List.length_cons] at hlength
      rw [piece_minus, if_neg (by omega)]
      exact Nat.succ_le_succ hle
  | literal hbody =>
    rw [List.cons_append, List.append_assoc] at hmore
    obtain ⟨rfl, rfl⟩ := List.cons.inj hmore
    rw [piece_quote, literalPiece, List.singleton_append, hbody.literalEnd_eq rest]
    dsimp only
    split <;> simp
  | minus => exact Nat.succ_le_succ (Nat.zero_le _)
  | newline => exact Nat.succ_le_succ (Nat.zero_le _)

/-- Where no blank stands, the piece takes as much as anything of a pattern. -/
theorem longest_piece (hblank : isBlank c = false) :
    Longest (c :: cs.take (piece c cs).2) (cs.drop (piece c cs).2) := by
  rintro more hmatches ⟨rest, hmore⟩
  rw [List.cons_append, List.take_append_drop] at hmore
  have hle := hmatches.length_le hmore.symm hblank
  have hlength := congrArg List.length hmore
  simp only [List.length_append, List.length_cons, List.length_take] at hlength ⊢
  omega

/-! ## Pieces -/

/-- What is said of a piece holds of the characters it takes and of those after them. -/
inductive Piece.Fits : Piece → List Char → List Char → Prop
  | blank {c : Char} {rest : List Char} (hc : isBlank c) : Fits .blank [c] rest
  | comment {body rest : List Char} (hbody : '\n' ∉ body) (hrest : ∀ c ∈ rest.head?, c = '\n') :
    Fits .blank (';' :: body) rest
  | token {t : Token} {cs rest : List Char} (hspelled : t.SpelledBy cs) : Fits (.token t) cs rest
  | unexpected {c : Char} {cs rest : List Char} (hblank : isBlank c = false)
    (hnewline : '\n' ∉ c :: cs) : Fits .unexpected (c :: cs) rest

theorem comment_fits (cs : List Char) :
    let n := (cs.takeWhile (· ≠ '\n')).length
    Piece.blank.Fits (';' :: cs.take n) (cs.drop n) := by
  dsimp only
  rw [take_length_takeWhile, drop_length_takeWhile]
  refine .comment (fun hmem => ?_) fun c hc => ?_
  · simpa using List.mem_takeWhile_imp hmem
  · have hall := List.head?_dropWhile_not (· ≠ '\n') cs
    rw [Option.mem_def.1 hc] at hall
    simpa using hall

theorem namePiece_fits (hc : isNameStart c) (cs rest : List Char) :
    let p := namePiece (c :: cs.takeWhile isNamePart) (cs.dropWhile isNamePart)
    p.1.Fits (c :: cs.take p.2) rest := by
  have hname : IsName (c :: cs.takeWhile isNamePart) :=
    .intro hc fun d hd => List.mem_takeWhile_imp hd
  unfold namePiece
  split
  · next more hmore =>
    dsimp only
    rw [List.length_cons, List.take_add, take_length_takeWhile, drop_length_takeWhile, hmore]
    exact .token (.label hname)
  · dsimp only
    rw [List.length_cons, Nat.add_sub_cancel, take_length_takeWhile]
    exact .token (.word hname)

theorem literalPiece_fits (cs rest : List Char) :
    (literalPiece cs).1.Fits ('"' :: cs.take (literalPiece cs).2) rest := by
  have hend := literalEnd_fits cs
  unfold literalPiece
  generalize literalEnd cs = e at hend
  cases hend with
  | @closed body more hbody =>
    have hcs : (body ++ '"' :: more).take (body.length + 1) = body ++ ['"'] := by
      rw [List.take_add, List.take_left, List.drop_left]
      rfl
    dsimp only
    rw [List.take_left]
    split
    · next s hs =>
      rw [hcs]
      exact .token (.text hbody hs)
    · rw [hcs]
      exact .unexpected rfl (by simp [hbody.newline_notMem])
  | broken body hbody =>
    rw [List.take_left]
    exact .unexpected rfl (by simp [hbody])

theorem piece_fits (c : Char) (cs : List Char) :
    (piece c cs).1.Fits (c :: cs.take (piece c cs).2) (cs.drop (piece c cs).2) := by
  unfold piece
  split
  · next hnewline =>
    subst hnewline
    exact .token .newline
  next hnewline =>
  split
  · next hblank => exact .blank hblank
  next hblank =>
  split
  · next hcomment =>
    subst hcomment
    exact comment_fits cs
  split
  · next hname => exact namePiece_fits hname cs _
  split
  · next hdigit =>
    have hne := numeralLength_ne_zero hdigit cs
    have hnumeral := isUnsigned_take hne
    obtain ⟨n, hn⟩ := Nat.exists_eq_succ_of_ne_zero hne
    dsimp only
    rw [hn, List.take_succ_cons] at hnumeral ⊢
    exact .token (.number (.unsigned hnumeral))
  split
  · next hminus =>
    subst hminus
    dsimp only
    split
    · exact .token .minus
    · next hnumeral => exact .token (.number (.negative (isUnsigned_take hnumeral)))
  split
  · next hquote =>
    subst hquote
    exact literalPiece_fits cs _
  · exact .unexpected (Bool.eq_false_iff.2 hblank) (by simpa using Ne.symm hnewline)

/-- **A token is the longest** of what has a pattern there. -/
theorem longest_of_token (h : (piece c cs).1 = .token t) :
    Longest (c :: cs.take (piece c cs).2) (cs.drop (piece c cs).2) := by
  refine longest_piece (Bool.eq_false_iff.2 fun hblank => ?_)
  rw [piece, if_neg (ne_of_test hblank rfl), if_pos hblank] at h
  contradiction

/-! ## Tokens keep to one line -/

theorem IsName.newline_notMem (h : IsName name) : '\n' ∉ name := by
  obtain ⟨hc, hcs⟩ := h
  rintro (_ | ⟨_, hmem⟩)
  · contradiction
  · exact absurd (hcs _ hmem) (by decide)

theorem IsUnsigned.newline_notMem (h : IsUnsigned cs) : '\n' ∉ cs := by
  have hdigits {ds : List Char} (hds : IsDigits ds) : '\n' ∉ ds := fun hmem =>
    absurd (hds.2 _ hmem) (by decide)
  obtain ⟨hwhole, hplaces, hexponent⟩ := h
  simp only [List.mem_append, not_or]
  refine ⟨hdigits hwhole, ?_, ?_⟩
  · cases hplaces with
    | none => exact List.not_mem_nil
    | point hds => simpa using hdigits hds
  · cases hexponent with
    | none => exact List.not_mem_nil
    | power hc hsign hds =>
      have hnewline := hdigits hds
      rcases hc with rfl | rfl <;> rcases hsign with rfl | rfl | rfl <;> simpa using hnewline

/-- Only the newline token holds a newline. -/
theorem Token.SpelledBy.newline_notMem (h : t.SpelledBy cs) (ht : t ≠ .newline) : '\n' ∉ cs := by
  cases h with
  | label hname => simpa using hname.newline_notMem
  | word hname => exact hname.newline_notMem
  | number hcs =>
    cases hcs with
    | unsigned h => exact h.newline_notMem
    | negative h => simpa using h.newline_notMem
  | text hbody hs => simpa using hbody.newline_notMem
  | minus => decide
  | newline => contradiction

theorem Token.SpelledBy.ne_nil (h : t.SpelledBy cs) : cs ≠ [] := by
  cases h with
  | word hname => cases hname; exact List.cons_ne_nil _ _
  | number hcs =>
    cases hcs with
    | unsigned h =>
      obtain ⟨d, more, rfl, -⟩ := h.exists_cons
      exact List.cons_ne_nil d more
    | negative h => exact List.cons_ne_nil _ _
  | _ => simp

end StackMachine.Listing
