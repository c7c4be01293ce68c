import StackMachine.Number.Text
import StackMachine.Proofs.Number.Integers
import StackMachine.Proofs.Number.Nearest
import StackMachine.Proofs.Prelude

/-!
# Numbers read back from their text

A number prints as the shortest decimal that rounds to it, or as an integer, and reading the text
gives the number back: what the digits spell is in the rounding interval. Only the sign of zero is
lost, because zero prints as an integer.
-/

namespace StackMachine

/-! ## Decimals that round to a number -/

namespace Number

variable {x : Number} {tie : Tie} {k : Int}

/-- What is taken from a grid rounds to the number. -/
theorem roundsTo_of_onGrid? {digits : Nat} (h : x.onGrid? tie k = some digits) :
    Decimal.RoundsTo ⟨digits, k⟩ x := by
  unfold onGrid? at h
  extract_lets grid value below inside at h
  split at h
  · next hbelow habove =>
    split at h
    · obtain rfl := Option.some.inj h
      exact hbelow
    · split at h
      · obtain rfl := Option.some.inj h
        exact habove
      · cases tie with
        | up =>
          obtain rfl := Option.some.inj h
          exact habove
        | toEven =>
          obtain rfl := Option.some.inj h
          split
          · exact hbelow
          · exact habove
  · next hbelow _ =>
    obtain rfl := Option.some.inj h
    exact hbelow
  · next _ habove =>
    obtain rfl := Option.some.inj h
    exact habove
  · contradiction

theorem roundsTo_of_searchGrids {count : Nat} {d : Decimal}
    (h : x.searchGrids tie k count = some d) : d.RoundsTo x := by
  induction count generalizing k with
  | zero => contradiction
  | succ count ih =>
    rw [searchGrids] at h
    split at h
    · next digits hdigits =>
      obtain rfl := Option.some.inj h
      exact roundsTo_of_onGrid? hdigits
    · exact ih h

/-- A decimal that is the number exactly. The number of places is left open, so that no power of it
is computed. -/
theorem roundsTo_of_quarters {d : Decimal} {n : Nat} (hn : 1076 = n)
    (h : (d.digits * 10 ^ d.exponent.toNat) <<< n = x.quarters * 10 ^ (-d.exponent).toNat) :
    d.RoundsTo x := by
  unfold Decimal.RoundsTo decimalQuarters tenPower
  rw [hn]
  exact (congrArg (x.roundsTo · (10 ^ (-d.exponent).toNat)) h).trans
    (x.roundsTo_quarters (Nat.pow_pos (by decide)))

/-- A decimal of so many places whose digits are all digits of a number. -/
theorem roundsTo_of_digits {n : Nat} (hn : 1076 = n + 2) :
    Decimal.RoundsTo ⟨x.magnitude * Nat.pow 5 n, -(n : Int)⟩ x := by
  refine roundsTo_of_quarters hn ?_
  have hten : 10 ^ n = 2 ^ n * 5 ^ n := by rw [← Nat.mul_pow]
  have hzero : (-(n : Int)).toNat = 0 := by omega
  have hplaces : (-(-(n : Int))).toNat = n := by omega
  show (x.magnitude * 5 ^ n * 10 ^ (-(n : Int)).toNat) <<< (n + 2) =
    x.quarters * 10 ^ (-(-(n : Int))).toNat
  rw [hzero, hplaces, magnitude, quarters, Nat.shiftLeft_eq, Nat.shiftLeft_eq, Nat.shiftLeft_eq,
    Nat.pow_add, hten]
  ring

theorem roundsTo_exactDecimal (x : Number) : x.exactDecimal.RoundsTo x := by
  have hexponent : (-1074 : Int) = -((1074 : Nat) : Int) := rfl
  rw [exactDecimal, hexponent]
  generalize hplaces : 1074 = n
  exact roundsTo_of_digits (by rw [← hplaces])

/-- **The shortest decimal of a number rounds to it.** -/
theorem roundsTo_shortestDecimal (x : Number) (tie : Tie) : (x.shortestDecimal tie).RoundsTo x := by
  rw [shortestDecimal]
  cases h : x.searchGrids tie x.topExponent (x.topExponent + 1075).toNat with
  | none => exact x.roundsTo_exactDecimal
  | some d => exact roundsTo_of_searchGrids h

/-! ## Numerals without an exponent -/

/-- A numeral without an exponent: digits, perhaps a point with more digits. -/
inductive PlainNumeral : List Char → Prop
  | whole {ds : List Char} (hds : ds ≠ []) (hdigits : ∀ c ∈ ds, c.isDigit) : PlainNumeral ds
  | places {ds es : List Char} (hds : ds ≠ []) (hdigits : ∀ c ∈ ds, c.isDigit) (hes : es ≠ [])
    (hplaces : ∀ c ∈ es, c.isDigit) : PlainNumeral (ds ++ '.' :: es)

theorem PlainNumeral.exists_cons {digits : List Char} (h : PlainNumeral digits) :
    ∃ c cs, digits = c :: cs ∧ c.isDigit := by
  cases h with
  | whole hds hdigits =>
    obtain ⟨c, cs, rfl⟩ := List.exists_cons_of_ne_nil hds
    exact ⟨c, cs, rfl, hdigits c List.mem_cons_self⟩
  | places hds hdigits hes hplaces =>
    obtain ⟨c, cs, rfl⟩ := List.exists_cons_of_ne_nil hds
    exact ⟨c, _, rfl, hdigits c List.mem_cons_self⟩

/-- A numeral begins with nothing but a digit. -/
theorem PlainNumeral.ne_cons {digits : List Char} (h : PlainNumeral digits) {c : Char}
    (hc : c.isDigit = false) (rest : List Char) : digits ≠ c :: rest := by
  obtain ⟨d, ds, rfl, hd⟩ := h.exists_cons
  intro heq
  obtain ⟨rfl, -⟩ := List.cons.inj heq
  rw [hc] at hd
  contradiction

theorem digitsValue_toDigits (n : Nat) : digitsValue (Nat.toDigits 10 n) = n :=
  Nat.ofDigitChars_ten_toDigits

theorem digitsValue_append_zeros (ds : List Char) (n : Nat) :
    digitsValue (ds ++ List.replicate n '0') = digitsValue ds * 10 ^ n := by
  show Nat.ofDigitChars 10 _ 0 = Nat.ofDigitChars 10 _ 0 * _
  rw [Nat.ofDigitChars_append, Nat.ofDigitChars_replicate_zero, Nat.mul_comm]

theorem digitsValue_zeros_append (n : Nat) (ds : List Char) :
    digitsValue (List.replicate n '0' ++ ds) = digitsValue ds := by
  show Nat.ofDigitChars 10 _ 0 = Nat.ofDigitChars 10 _ 0
  rw [Nat.ofDigitChars_append, Nat.ofDigitChars_replicate_zero, Nat.mul_zero]

theorem numeralDecimal_whole {ds : List Char} (hdigits : ∀ c ∈ ds, c.isDigit) :
    numeralDecimal ds = ⟨digitsValue ds, 0⟩ := by
  have htake : ds.takeWhile Char.isDigit = ds := List.takeWhile_eq_self_iff.2 hdigits
  have hdrop : ds.dropWhile Char.isDigit = [] := List.dropWhile_eq_nil_iff.2 hdigits
  simp [numeralDecimal, htake, hdrop]

theorem numeralDecimal_places {ds es : List Char} (hdigits : ∀ c ∈ ds, c.isDigit)
    (hplaces : ∀ c ∈ es, c.isDigit) :
    numeralDecimal (ds ++ '.' :: es) = ⟨digitsValue (ds ++ es), -(es.length : Int)⟩ := by
  have hds := takeWhile_append_cons (p := Char.isDigit) hdigits (y := '.') rfl es
  have htake : es.takeWhile Char.isDigit = es := List.takeWhile_eq_self_iff.2 hplaces
  have hdrop : es.dropWhile Char.isDigit = [] := List.dropWhile_eq_nil_iff.2 hplaces
  simp [numeralDecimal, hds, htake, hdrop]

/-! ## Printing -/

theorem isDigit_of_mem_toDigits {n : Nat} {c : Char} (h : c ∈ Nat.toDigits 10 n) : c.isDigit :=
  Nat.isDigit_of_mem_toDigits (by decide) (by decide) h

/-- The digits of a natural number are a numeral. -/
theorem plainNumeral_toDigits (n : Nat) : PlainNumeral (Nat.toDigits 10 n) :=
  .whole Nat.toDigits_ne_nil fun _ => isDigit_of_mem_toDigits

end Number

namespace Decimal

open Number (PlainNumeral numeralDecimal digitsValue)

/-- The digits of a decimal with zeros before them. -/
theorem isDigit_of_mem_padded {d : Decimal} {n : Nat} {c : Char}
    (h : c ∈ List.replicate n '0' ++ Nat.toDigits 10 d.digits) : c.isDigit := by
  rcases List.mem_append.1 h with hzero | hdigit
  · rw [List.eq_of_mem_replicate hzero]
    rfl
  · exact Number.isDigit_of_mem_toDigits hdigit

/-- A decimal without places is written as an integer. -/
theorem positionalText_of_nonneg {d : Decimal} (h : 0 ≤ d.exponent) :
    PlainNumeral (d.positionalText false) ∧
      numeralDecimal (d.positionalText false) = ⟨d.digits * 10 ^ d.exponent.toNat, 0⟩ := by
  have htext : d.positionalText false =
      Nat.toDigits 10 d.digits ++ List.replicate d.exponent.toNat '0' := by
    rw [positionalText, if_pos h]
    exact List.append_nil _
  have hdigits : ∀ c ∈ d.positionalText false, c.isDigit := by
    intro c hc
    rw [htext, List.mem_append] at hc
    rcases hc with hdigit | hzero
    · exact Number.isDigit_of_mem_toDigits hdigit
    · rw [List.eq_of_mem_replicate hzero]
      rfl
  refine ⟨.whole ?_ hdigits, ?_⟩
  · rw [htext]
    exact List.append_ne_nil_of_left_ne_nil Nat.toDigits_ne_nil _
  · rw [Number.numeralDecimal_whole hdigits, htext, Number.digitsValue_append_zeros,
      Number.digitsValue_toDigits]

/-- A decimal with places is written with as many places, and a digit before them. -/
theorem positionalText_of_neg {d : Decimal} (h : d.exponent < 0) :
    PlainNumeral (d.positionalText false) ∧ numeralDecimal (d.positionalText false) = d := by
  obtain ⟨places, hplaces⟩ : ∃ places : Nat, d.exponent = -(places : Int) :=
    ⟨(-d.exponent).toNat, by omega⟩
  have hpos : 0 < places := by omega
  have htoNat : (-d.exponent).toNat = places := by omega
  have htext : ∃ n, places < (List.replicate n '0' ++ Nat.toDigits 10 d.digits).length ∧
      d.positionalText false =
        (List.replicate n '0' ++ Nat.toDigits 10 d.digits).take
            ((List.replicate n '0' ++ Nat.toDigits 10 d.digits).length - places) ++
          '.' :: (List.replicate n '0' ++ Nat.toDigits 10 d.digits).drop
            ((List.replicate n '0' ++ Nat.toDigits 10 d.digits).length - places) := by
    refine ⟨places + 1 - (Nat.toDigits 10 d.digits).length, ?_, ?_⟩
    · rw [List.length_append, List.length_replicate]
      omega
    · rw [positionalText, if_neg (Int.not_le.2 h), htoNat]
  obtain ⟨n, hlength, htext⟩ := htext
  have hdigits : ∀ c ∈ List.replicate n '0' ++ Nat.toDigits 10 d.digits, c.isDigit :=
    fun c => isDigit_of_mem_padded
  have hvalue : digitsValue (List.replicate n '0' ++ Nat.toDigits 10 d.digits) = d.digits := by
    rw [Number.digitsValue_zeros_append, Number.digitsValue_toDigits]
  generalize List.replicate n '0' ++ Nat.toDigits 10 d.digits = padded at *
  have hwhole : ∀ c ∈ padded.take (padded.length - places), c.isDigit :=
    fun c hc => hdigits c (List.mem_of_mem_take hc)
  have hrest : ∀ c ∈ padded.drop (padded.length - places), c.isDigit :=
    fun c hc => hdigits c (List.mem_of_mem_drop hc)
  have hwhole' : padded.take (padded.length - places) ≠ [] := by
    rw [← List.length_pos_iff, List.length_take]
    omega
  have hrestLength : (padded.drop (padded.length - places)).length = places := by
    rw [List.length_drop]
    omega
  rw [htext]
  refine ⟨.places hwhole' hwhole ?_ hrest, ?_⟩
  · rw [← List.length_pos_iff, hrestLength]
    exact hpos
  · rw [Number.numeralDecimal_places hwhole hrest, List.take_append_drop, hvalue, hrestLength,
      ← hplaces]

/-- **A decimal that is printed positionally** is read as a decimal that rounds to the same
numbers. -/
theorem RoundsTo.positionalText {d : Decimal} {x : Number} (h : d.RoundsTo x) :
    PlainNumeral (d.positionalText false) ∧
      (numeralDecimal (d.positionalText false)).RoundsTo x ∧
      (numeralDecimal (d.positionalText false)).exponent ≤ 0 := by
  by_cases hexponent : 0 ≤ d.exponent
  · obtain ⟨hplain, hdecimal⟩ := positionalText_of_nonneg hexponent
    refine ⟨hplain, ?_, by rw [hdecimal]⟩
    have hzero : (-d.exponent).toNat = 0 := by omega
    rw [hdecimal]
    unfold RoundsTo Number.decimalQuarters Number.tenPower at h ⊢
    rw [hzero] at h
    rw [← h]
    simp
  · obtain ⟨hplain, hdecimal⟩ := positionalText_of_neg (Int.not_le.1 hexponent)
    rw [hdecimal]
    exact ⟨hplain, h, by omega⟩

end Decimal

namespace Number

variable {x : Number}

/-- The integer that a number is exactly, with and without its sign. -/
theorem magnitude_of_toInt? {n : Int} (h : x.toInt? = some n) :
    x.magnitude = n.natAbs <<< 1074 ∧
      n = if x.isNegative then -(n.natAbs : Int) else (n.natAbs : Int) := by
  unfold toInt? at h
  generalize 1074 = k at h ⊢
  split at h
  · next hint =>
    have hmod := beq_iff_eq.1 (Bool.and_eq_true_iff.1 hint).2
    obtain ⟨q, hq⟩ : ∃ q, x.magnitude = q <<< k := by
      rw [Nat.one_shiftLeft] at hmod
      obtain ⟨q, hq⟩ := Nat.dvd_of_mod_eq_zero hmod
      exact ⟨q, by rw [Nat.shiftLeft_eq, Nat.mul_comm, hq]⟩
    obtain rfl := Option.some.inj h
    rw [units, hq]
    split
    · rw [Int.neg_tdiv, tdiv_shiftLeft, Int.natAbs_neg, Int.natAbs_natCast]
      exact ⟨rfl, rfl⟩
    · rw [tdiv_shiftLeft, Int.natAbs_natCast]
      exact ⟨rfl, rfl⟩
  · contradiction

/-- An integer that a number is exactly rounds to it. -/
theorem roundsTo_of_toInt? {n : Int} (h : x.toInt? = some n) :
    Decimal.RoundsTo ⟨n.natAbs, 0⟩ x := by
  obtain ⟨k, hunits, hplaces⟩ : ∃ k, 1074 = k ∧ 1076 = k + 2 := ⟨_, rfl, rfl⟩
  have hmagnitude := (magnitude_of_toInt? h).1
  rw [hunits, magnitude, Nat.shiftLeft_eq, Nat.shiftLeft_eq] at hmagnitude
  refine roundsTo_of_quarters hplaces ?_
  show (n.natAbs * 10 ^ 0) <<< (k + 2) = x.quarters * 10 ^ 0
  rw [quarters, Nat.shiftLeft_eq, Nat.shiftLeft_eq, Nat.mul_assoc 4, hmagnitude]
  ring

theorem significand_ne_zero (hzero : x.isZero = false) : x.significand ≠ 0 := by
  rw [significand]
  split
  · next hexponent =>
    intro hfraction
    rw [isZero, hexponent, hfraction] at hzero
    contradiction
  · exact Nat.ne_of_gt (Nat.add_pos_left (by decide) _)

/-- The sign of an integer that a number is exactly. -/
theorem sign_of_toInt? {n : Int} (h : x.toInt? = some n) (hzero : x.isZero = false) :
    n < 0 ↔ x.isNegative = true := by
  obtain ⟨hmagnitude, hsign⟩ := magnitude_of_toInt? h
  have hne : n.natAbs ≠ 0 := by
    intro hn
    rw [hn, Nat.zero_shiftLeft, magnitude, Nat.shiftLeft_eq] at hmagnitude
    exact significand_ne_zero hzero ((Nat.mul_eq_zero.1 hmagnitude).resolve_right
      (Nat.two_pow_pos _).ne')
  clear hmagnitude
  split at hsign
  · next hnegative => exact ⟨fun _ => hnegative, fun _ => by omega⟩
  · next hnegative => exact ⟨fun _ => by omega, fun h => absurd h hnegative⟩

/-- **The text of a finite number that is not zero** is a numeral, after the sign of the number,
that spells a decimal that rounds to the number. -/
theorem exists_numeral (hfinite : x.isFinite = true) (hzero : x.isZero = false) :
    ∃ numeral, x.text = x.withSign numeral ∧ PlainNumeral numeral ∧
      (numeralDecimal numeral).RoundsTo x ∧ (numeralDecimal numeral).exponent ≤ 0 := by
  have hlayout : x.layoutText valueLayout =
      x.withSign ((x.shortestDecimal .up).positionalText false) := rfl
  have hshortest := (x.roundsTo_shortestDecimal .up).positionalText
  have hnumber : x.isNaN = false ∧ x.isInfinite = false := by
    rw [isNaN, isInfinite, hfinite]
    exact ⟨rfl, rfl⟩
  rw [text, hnumber.1, hnumber.2, if_neg Bool.false_ne_true, if_neg Bool.false_ne_true]
  split
  · next n hn =>
    split
    · have hdecimal : numeralDecimal (Nat.toDigits 10 n.natAbs) = ⟨n.natAbs, 0⟩ := by
        rw [numeralDecimal_whole fun _ => isDigit_of_mem_toDigits, digitsValue_toDigits]
      have htext : String.ofList ((if n < 0 then ['-'] else []) ++ Nat.toDigits 10 n.natAbs) =
          x.withSign (Nat.toDigits 10 n.natAbs) := by
        rw [withSign]
        simp only [sign_of_toInt? hn hzero]
        split <;> rfl
      refine ⟨_, htext, plainNumeral_toDigits n.natAbs, ?_, ?_⟩
      · rw [hdecimal]
        exact roundsTo_of_toInt? hn
      · rw [hdecimal]
    · exact ⟨_, hlayout, hshortest⟩
  · exact ⟨_, hlayout, hshortest⟩

/-! ## Numbers that share a text -/

theorem eq_of_isZero (h : x.isZero = true) : x = zero ∨ x = zero.neg := by
  obtain ⟨hexponent, hfraction⟩ := Bool.and_eq_true_iff.1 h
  have hfields := x.ofSignAndBits_fields
  rw [beq_iff_eq.1 hexponent, beq_iff_eq.1 hfraction] at hfields
  rw [← hfields]
  cases x.isNegative <;> decide

theorem eq_of_isInfinite (h : x.isInfinite = true) : x = infinity ∨ x = infinity.neg := by
  obtain ⟨hfinite, hfraction⟩ := Bool.and_eq_true_iff.1 h
  have hexponent : x.exponentField = 2047 := by
    have hlt : x.exponentField < 1 <<< 11 := Nat.mod_lt _ (by decide)
    simp only [isFinite, Bool.not_eq_true', decide_eq_false_iff_not] at hfinite
    omega
  have hfields := x.ofSignAndBits_fields
  rw [hexponent, beq_iff_eq.1 hfraction] at hfields
  rw [← hfields]
  cases x.isNegative <;> decide

/-- What reading the text of a number gives: the sign of zero and what a NaN carries are lost. -/
def reread (x : Number) : Number := if x.isNaN then nan else if x.isZero then zero else x

theorem reread_eq_self_iff : x.reread = x ↔ x ≠ zero.neg ∧ (x.isNaN = true → x = nan) := by
  rw [reread]
  split
  · next hnan =>
    refine ⟨fun h => ⟨?_, fun _ => h.symm⟩, fun h => (h.2 hnan).symm⟩
    rintro rfl
    exact absurd hnan (by decide)
  · next hnan =>
    split
    · next hzero =>
      rcases eq_of_isZero hzero with rfl | rfl <;> decide
    · next hzero =>
      refine ⟨fun _ => ⟨?_, fun h => absurd h hnan⟩, fun _ => rfl⟩
      rintro rfl
      exact hzero (by decide)

/-! ## Reading -/

/-- The texts of numbers without an exponent, and the numbers that they are read as. -/
inductive Spelled : String → Number → Prop
  | nan : Spelled "nan" nan
  | infinity : Spelled "inf" infinity
  | negativeInfinity : Spelled "-inf" infinity.neg
  | numeral {digits : List Char} (hdigits : PlainNumeral digits) :
    Spelled (String.ofList digits) (ofNumeral digits)
  | negativeNumeral {digits : List Char} (hdigits : PlainNumeral digits) :
    Spelled (String.ofList ('-' :: digits)) (ofNumeral ('-' :: digits))

/-- A numeral after the sign of a number. -/
theorem spelled_withSign {digits : List Char} (hdigits : PlainNumeral digits) (x : Number) :
    Spelled (x.withSign digits) ((numeralDecimal digits).toNumber x.isNegative) := by
  rw [withSign]
  cases x.isNegative with
  | true => exact .negativeNumeral hdigits
  | false =>
    have hunsigned : ofNumeral digits = (numeralDecimal digits).toNumber false := by
      rw [ofNumeral]
      exact fun rest => hdigits.ne_cons (by decide) rest
    rw [← hunsigned]
    exact .numeral hdigits

/-- **The text of a number is read back**, but for the sign of zero and what a NaN carries. -/
theorem spelled_text (x : Number) : Spelled x.text x.reread := by
  by_cases hnan : x.isNaN = true
  · rw [reread, text, if_pos hnan, if_pos hnan]
    exact .nan
  · rw [reread, if_neg hnan]
    by_cases hinfinite : x.isInfinite = true
    · rcases eq_of_isInfinite hinfinite with rfl | rfl
      · exact .infinity
      · exact .negativeInfinity
    · by_cases hzero : x.isZero = true
      · have hspelled := Spelled.numeral (plainNumeral_toDigits 0)
        have hread : ofNumeral (Nat.toDigits 10 0) = zero := by decide +kernel
        rw [hread] at hspelled
        rw [if_pos hzero]
        rcases eq_of_isZero hzero with rfl | rfl <;> exact hspelled
      · have hfinite : x.isFinite = true := by
          simp only [isNaN, isInfinite, Bool.and_eq_true, bne_iff_ne, beq_iff_eq] at hnan hinfinite
          grind
        rw [Bool.not_eq_true] at hzero
        obtain ⟨digits, htext, hdigits, hrounds, hexponent⟩ := exists_numeral hfinite hzero
        have hspelled := spelled_withSign hdigits x
        rw [hrounds.toNumber hfinite (significand_ne_zero hzero) (by omega)] at hspelled
        rw [htext, hzero]
        exact hspelled

/-- The number that a text without an exponent is read as. -/
def ofText (s : String) : Number :=
  if s = "nan" then nan
  else if s = "inf" then infinity
  else if s = "-inf" then infinity.neg
  else ofNumeral s.toList

theorem Spelled.eq_ofText {s : String} {x : Number} (h : Spelled s x) : x = ofText s := by
  have hletters {digits : List Char} (hdigits : PlainNumeral digits) :
      String.ofList digits ≠ "nan" ∧ String.ofList digits ≠ "inf" ∧
        String.ofList digits ≠ "-inf" ∧ String.ofList ('-' :: digits) ≠ "-inf" := by
    simp only [ne_eq, ← String.toList_inj, String.toList_ofList]
    exact ⟨hdigits.ne_cons (by decide) _, hdigits.ne_cons (by decide) _,
      hdigits.ne_cons (by decide) _, fun h => hdigits.ne_cons (by decide) _ (List.cons.inj h).2⟩
  cases h with
  | nan | infinity | negativeInfinity => rfl
  | numeral hdigits =>
    obtain ⟨hnan, hinf, hneg, -⟩ := hletters hdigits
    rw [ofText, if_neg hnan, if_neg hinf, if_neg hneg, String.toList_ofList]
  | negativeNumeral hdigits =>
    have hsign {s : String} (hs : s.toList.head? ≠ some '-') (digits : List Char) :
        String.ofList ('-' :: digits) ≠ s := by
      rintro rfl
      exact hs (by rw [String.toList_ofList, List.head?_cons])
    rw [ofText, if_neg (hsign (by decide) _), if_neg (hsign (by decide) _),
      if_neg (hletters hdigits).2.2.2, String.toList_ofList]

/-- **Numbers of one text are read back as one number.** -/
theorem reread_eq_of_text_eq {x y : Number} (h : x.text = y.text) : x.reread = y.reread := by
  rw [x.spelled_text.eq_ofText, y.spelled_text.eq_ofText, h]

end Number
end StackMachine
