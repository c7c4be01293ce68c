import StackMachine.Proofs.Number.Integers
import StackMachine.Number.Decimal

/-!
# Rounding into the interval of a double

Every quotient in the rounding interval of a finite double rounds to that double: the interval is
what `Number.roundsTo` says, and rounding is `Number.ofUnits`. The interval reaches half a unit of
the last place to either side, or a quarter below a power of two, where the doubles are twice as
dense; the quotient is then rounded with one bit more, and the carry makes up for it.
-/

namespace StackMachine

/-! ## Rounding to an integer -/

/-- A quotient that is at most one half from an integer, and not half from an odd one, is rounded to
it. -/
theorem roundHalfEven_eq {num den n : Nat} (hden : 0 < den) (hlow : 2 * (n * den) ≤ 2 * num + den)
    (hhigh : 2 * num ≤ 2 * (n * den) + den)
    (hodd : n % 2 = 1 → 2 * (n * den) < 2 * num + den ∧ 2 * num < 2 * (n * den) + den) :
    roundHalfEven num den = n := by
  have hsplit : num / den * den + num % den = num := Nat.div_add_mod' num den
  have hrest : num % den < den := Nat.mod_lt num hden
  rw [roundHalfEven]
  generalize num / den = q at hsplit ⊢
  generalize num % den = r at hsplit hrest ⊢
  -- The quotient without its rest is the integer or the one before it.
  have hle : q ≤ n := by
    by_contra hlt
    have := Nat.mul_le_mul_right den (Nat.lt_of_not_le hlt)
    rw [Nat.succ_mul] at this
    omega
  have hge : n ≤ q + 1 := by
    by_contra hlt
    have := Nat.mul_le_mul_right den (Nat.lt_of_not_le hlt)
    rw [Nat.succ_mul, Nat.succ_mul] at this
    omega
  rcases Nat.eq_or_lt_of_le hge with heq | hlt
  · have hproduct : n * den = q * den + den := by rw [heq, Nat.succ_mul]
    rw [hproduct] at hlow hhigh hodd
    repeat' split
    all_goals omega
  · obtain rfl : q = n := by omega
    repeat' split
    all_goals omega

namespace Number

/-! ## Rounding to a significand -/

/-- How many bits are rounded off a quotient that has at most one bit too many for a significand
that is doubled so often. -/
theorem log2_sub_eq {q s : Nat} (hhigh : q < 2 ^ (53 + s)) (hlow : s = 0 ∨ 2 ^ (52 + s) ≤ q) :
    q.log2 - 52 = s := by
  by_cases hq : q = 0
  · subst hq
    rcases hlow with rfl | hlow
    · rfl
    · have := Nat.two_pow_pos (52 + s)
      omega
  have hbelow : q.log2 < 53 + s := (Nat.log2_lt hq).2 hhigh
  rcases hlow with rfl | hlow
  · omega
  · have := (Nat.le_log2 hq).2 hlow
    omega

/-- The quotient is rounded to a significand that is doubled so often. -/
theorem roundUnits_eq {num den n s : Nat} (hden : 0 < den)
    (hlow : s = 0 ∨ 2 ^ 52 * (den * 2 ^ s) ≤ num) (hhigh : num < 2 ^ 53 * (den * 2 ^ s))
    (hround : roundHalfEven num (den * 2 ^ s) = n) (hrange : s * 2 ^ 52 + n ≤ infinityBits) :
    roundUnits num den = s * 2 ^ 52 + n := by
  have hscaled (k : Nat) : 2 ^ k * (den * 2 ^ s) = 2 ^ (k + s) * den := by
    rw [Nat.pow_add]
    ac_rfl
  have hshift : (num / den).log2 - 52 = s := by
    refine log2_sub_eq ?_ (hlow.imp_right fun hlow => ?_)
    · rw [Nat.div_lt_iff_lt_mul hden, ← hscaled]
      exact hhigh
    · rw [Nat.le_div_iff_mul_le hden, ← hscaled]
      exact hlow
  rw [roundUnits, hshift]
  simp only [Nat.shiftLeft_eq, hround]
  exact Nat.min_eq_left hrange

/-! ## The rounding interval -/

variable {x : Number} {num den : Nat}

/-- A number from its fields. -/
theorem ofSignAndBits_fields (x : Number) :
    ofSignAndBits x.isNegative (x.exponentField * 2 ^ 52 + x.fraction) = x := by
  have hlt := x.bits.toNat_lt
  have hbits : x.exponentField * 2 ^ 52 + x.fraction + (if x.isNegative then 1 <<< 63 else 0) =
      x.bits.toNat := by
    simp only [exponentField, fraction, isNegative, Nat.shiftRight_eq_div_pow, Nat.one_shiftLeft,
      decide_eq_true_eq]
    split <;> omega
  rw [ofSignAndBits, hbits, UInt64.ofNat_toNat]

/-- The significand and the doublings that the fields of a finite number stand for. -/
theorem significand_spec (x : Number) :
    x.significand < 2 ^ 53 ∧ x.scale * 2 ^ 52 + x.significand =
      x.exponentField * 2 ^ 52 + x.fraction ∧
      (x.exponentField ≠ 0 → 2 ^ 52 ≤ x.significand) := by
  have hfraction : x.fraction < 2 ^ 52 := Nat.mod_lt _ (Nat.two_pow_pos 52)
  rw [significand, scale, Nat.one_shiftLeft]
  split <;> omega

/-- What it means that a quotient is in the rounding interval: it is at most half a unit of the last
place away, or a quarter below a power of two, and not that far from an odd significand. -/
theorem bounds_of_roundsTo (h : x.roundsTo (4 * num) den = true) :
    let unit := den * 2 ^ x.scale
    2 * num ≤ 2 * (x.significand * unit) + unit ∧ 2 * (x.significand * unit) ≤ 2 * num + unit ∧
      (x.significand % 2 = 1 → 2 * num < 2 * (x.significand * unit) + unit ∧
        2 * (x.significand * unit) < 2 * num + unit) ∧
      (x.fraction = 0 ∧ 1 < x.exponentField →
        4 * (x.significand * unit) ≤ 4 * num + unit) := by
  intro unit
  have hlower (quarters : Nat) : ((4 * x.significand - quarters) <<< x.scale) * den =
      4 * (x.significand * unit) - quarters * unit := by
    rw [Nat.shiftLeft_eq, Nat.mul_assoc, Nat.mul_comm (2 ^ x.scale), Nat.sub_mul, Nat.mul_assoc]
  have hupper : ((4 * x.significand + 2) <<< x.scale) * den =
      4 * (x.significand * unit) + 2 * unit := by
    rw [Nat.shiftLeft_eq, Nat.mul_assoc, Nat.mul_comm (2 ^ x.scale), Nat.add_mul, Nat.mul_assoc]
  rw [roundsTo, lowerQuarters, upperQuarters, hlower, hupper] at h
  generalize x.significand * unit = value at h ⊢
  by_cases hpower : x.fraction = 0 ∧ 1 < x.exponentField
  · rw [if_pos hpower] at h
    split at h <;> simp only [Bool.and_eq_true, decide_eq_true_eq] at h <;> omega
  · rw [if_neg hpower] at h
    split at h <;> simp only [Bool.and_eq_true, decide_eq_true_eq] at h <;> omega

/-- **A quotient in the rounding interval of a finite number is rounded to the bits of it.** -/
theorem roundUnits_of_roundsTo (hfinite : x.isFinite = true) (hden : 0 < den)
    (h : x.roundsTo (4 * num) den = true) :
    roundUnits num den = x.exponentField * 2 ^ 52 + x.fraction := by
  obtain ⟨hhigh, hlow, hodd, hpower⟩ := bounds_of_roundsTo h
  obtain ⟨hlt, hbits, hnormal⟩ := x.significand_spec
  have hexponent : x.exponentField < 2047 := of_decide_eq_true hfinite
  have hfraction : x.fraction < 2 ^ 52 := Nat.mod_lt _ (Nat.two_pow_pos 52)
  have hrange : x.exponentField * 2 ^ 52 + x.fraction ≤ infinityBits := by
    rw [infinityBits]
    omega
  have hunit : 0 < den * 2 ^ x.scale := Nat.mul_pos hden (Nat.two_pow_pos _)
  have hbelow := Nat.mul_le_mul_right (den * 2 ^ x.scale) (Nat.le_sub_one_of_lt hlt)
  by_cases hshort : x.scale ≠ 0 ∧ num < 2 ^ 52 * (den * 2 ^ x.scale)
  -- Only below a power of two is the quotient so small; there is one bit more to round to.
  · obtain ⟨hscale, hsmall⟩ := hshort
    have hexponent' : x.exponentField = x.scale + 1 := by
      rw [scale] at hscale ⊢
      omega
    have hsignificand : x.significand = 2 ^ 52 + x.fraction := by omega
    have hzero : x.fraction = 0 := by
      by_contra hne
      have := Nat.mul_le_mul_right (den * 2 ^ x.scale)
        (show 2 ^ 52 + 1 ≤ x.significand by omega)
      omega
    have hquarter := hpower ⟨hzero, by omega⟩
    rw [hzero, Nat.add_zero] at hsignificand
    obtain ⟨s, hs⟩ := Nat.exists_eq_add_one_of_ne_zero hscale
    have hunits : den * 2 ^ x.scale = 2 * (den * 2 ^ s) := by
      rw [hs, Nat.pow_succ]
      ac_rfl
    rw [hsignificand, hunits] at hquarter
    rw [hunits] at hsmall
    have hsame : x.exponentField * 2 ^ 52 + x.fraction = s * 2 ^ 52 + 2 ^ 53 := by
      rw [hzero, hexponent', hs]
      ring
    rw [hsame] at hrange ⊢
    refine roundUnits_eq hden (.inr (by omega)) (by omega)
      (roundHalfEven_eq (Nat.mul_pos hden (Nat.two_pow_pos s)) ?_ ?_
        fun hodd => absurd hodd (by norm_num)) hrange
    · omega
    · omega
  · rw [← hbits] at hrange ⊢
    have hround := roundHalfEven_eq hunit hlow hhigh fun h => (hodd h).symm
    refine roundUnits_eq hden ?_ ?_ hround hrange
    · omega
    · omega

theorem ofUnits_of_roundsTo (hfinite : x.isFinite = true) (hden : 0 < den)
    (h : x.roundsTo (4 * num) den = true) : ofUnits x.isNegative num den = x := by
  rw [ofUnits, roundUnits_of_roundsTo hfinite hden h, ofSignAndBits_fields]

/-- A number is in its own rounding interval. -/
theorem roundsTo_quarters (x : Number) (hden : 0 < den) :
    x.roundsTo (x.quarters * den) den = true := by
  have hunit : 0 < 2 ^ x.scale := Nat.two_pow_pos _
  have hlower (k : Nat) : (4 * x.significand - k) <<< x.scale ≤ x.quarters := by
    rw [quarters, Nat.shiftLeft_eq, Nat.shiftLeft_eq]
    exact Nat.mul_le_mul_right _ (Nat.sub_le _ _)
  have hupper : x.quarters < x.upperQuarters := by
    rw [quarters, upperQuarters, Nat.shiftLeft_eq, Nat.shiftLeft_eq]
    exact Nat.mul_lt_mul_of_pos_right (by omega) hunit
  rw [roundsTo]
  split
  · simp only [Bool.and_eq_true, decide_eq_true_eq]
    exact ⟨Nat.mul_le_mul_right den (hlower _), Nat.mul_le_mul_right den hupper.le⟩
  · next hodd =>
    have hstrict : x.lowerQuarters < x.quarters := by
      rw [quarters, lowerQuarters, Nat.shiftLeft_eq, Nat.shiftLeft_eq]
      refine Nat.mul_lt_mul_of_pos_right ?_ hunit
      split <;> omega
    simp only [Bool.and_eq_true, decide_eq_true_eq]
    exact ⟨Nat.mul_lt_mul_of_pos_right hstrict hden, Nat.mul_lt_mul_of_pos_right hupper hden⟩

end Number

/-! ## Decimals -/

/-- A decimal is in the rounding interval of a number. -/
def Decimal.RoundsTo (d : Decimal) (x : Number) : Prop :=
  x.roundsTo (Number.decimalQuarters d.digits d.exponent).1
    (Number.decimalQuarters d.digits d.exponent).2 = true

namespace Decimal

variable {d : Decimal} {x : Number}

theorem RoundsTo.quotient (h : d.RoundsTo x) :
    x.roundsTo (4 * ((d.digits * 10 ^ d.exponent.toNat) <<< 1074)) (10 ^ (-d.exponent).toNat) =
      true := by
  have hquarters : (d.digits * 10 ^ d.exponent.toNat) <<< 1076 =
      4 * ((d.digits * 10 ^ d.exponent.toNat) <<< 1074) := by
    generalize d.digits * 10 ^ d.exponent.toNat = n
    rw [show 1076 = 1074 + 2 from rfl, Nat.shiftLeft_add, Nat.shiftLeft_eq _ 2, Nat.mul_comm]
  rw [← hquarters]
  exact h

/-- A decimal in the interval of a number that is not zero is at least half of the smallest unit. -/
theorem RoundsTo.le (h : d.RoundsTo x) (hx : x.significand ≠ 0) :
    10 ^ (-d.exponent).toNat ≤ 2 * ((d.digits * 10 ^ d.exponent.toNat) <<< 1074) := by
  obtain ⟨-, hlow, -⟩ := Number.bounds_of_roundsTo h.quotient
  have hunit := Nat.le_mul_of_pos_right (10 ^ (-d.exponent).toNat) (Nat.two_pow_pos x.scale)
  have hvalue := Nat.le_mul_of_pos_left (10 ^ (-d.exponent).toNat * 2 ^ x.scale)
    (Nat.pos_of_ne_zero hx)
  omega

/-- A multiple of a unit is below a power of ten that has enough places more. -/
theorem two_mul_mul_lt {n unit places : Nat} (hpos : 0 < unit) (hunit : 2 ^ 2 * unit ≤ 10 ^ 332)
    (hplaces : n.log2 + 332 ≤ places) : 2 * (n * unit) < 10 ^ places :=
  calc 2 * (n * unit)
      < 2 * (2 ^ (n.log2 + 1) * unit) :=
        Nat.mul_lt_mul_of_pos_left (Nat.mul_lt_mul_of_pos_right Nat.lt_log2_self hpos) (by decide)
    _ = 2 ^ n.log2 * (2 ^ 2 * unit) := by
        rw [Nat.pow_succ]
        ring
    _ ≤ 10 ^ n.log2 * 10 ^ 332 := Nat.mul_le_mul (Nat.pow_le_pow_left (by decide) _) hunit
    _ ≤ 10 ^ places := by
        rw [← Nat.pow_add]
        exact Nat.pow_le_pow_right (by decide) hplaces

/-- **A decimal is read as the number in whose rounding interval it is.** -/
theorem RoundsTo.toNumber (h : d.RoundsTo x) (hfinite : x.isFinite = true)
    (hx : x.significand ≠ 0) (hexponent : d.exponent ≤ 310) : d.toNumber x.isNegative = x := by
  have hle := h.le hx
  have hdigits : d.digits ≠ 0 := by
    intro hzero
    rw [hzero, Nat.zero_mul, Nat.zero_shiftLeft] at hle
    exact absurd hle (Nat.not_le_of_lt (by positivity))
  -- Decimals that are taken for zero are too small to be in the interval.
  have hlarge : ¬d.exponent + d.digits.log2 + 1 < -330 := by
    intro hsmall
    have hzero : d.exponent.toNat = 0 := by omega
    rw [hzero, Nat.pow_zero, Nat.mul_one, Nat.shiftLeft_eq] at hle
    exact absurd hle (Nat.not_le_of_lt
      (two_mul_mul_lt (Nat.two_pow_pos 1074) (by decide +kernel) (by omega)))
  unfold Decimal.toNumber
  split
  · next hguard => exact absurd hguard (not_or.2 ⟨hdigits, hlarge⟩)
  · split
    · next hguard => exact absurd hguard (Int.not_lt.2 hexponent)
    · have hden : 0 < 10 ^ (-d.exponent).toNat := by positivity
      exact Number.ofUnits_of_roundsTo hfinite hden h.quotient

end Decimal
end StackMachine
