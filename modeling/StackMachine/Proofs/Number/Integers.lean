import Mathlib
import StackMachine.Number.Rounding

/-!
# Integers that are doubles

A significand of fifty-three bits that is doubled some number of times is a double as it is, so
rounding keeps it. An integer below 2⁵³ is such a significand, counted in units, and the integer
that its number is exactly is the integer itself. No integer but zero is rounded to zero.
-/

namespace StackMachine

theorem roundHalfEven_shiftLeft (n k : Nat) : roundHalfEven (n <<< k) (1 <<< k) = n := by
  have hpos : 0 < 2 ^ k := Nat.two_pow_pos k
  have hq : n * 2 ^ k / 2 ^ k = n := Nat.mul_div_cancel n hpos
  have hr : n * 2 ^ k % 2 ^ k = 0 := Nat.mul_mod_left n (2 ^ k)
  rw [roundHalfEven, Nat.shiftLeft_eq, Nat.one_shiftLeft, hq, hr, Nat.mul_zero]
  exact if_pos hpos

theorem shiftLeft_mod (n k : Nat) : n <<< k % (1 <<< k) = 0 := by
  rw [Nat.shiftLeft_eq, Nat.one_shiftLeft, Nat.mul_mod_left]

theorem tdiv_shiftLeft (n k : Nat) : ((n <<< k : Nat) : Int).tdiv (1 <<< k : Nat) = n := by
  rw [← Int.ofNat_tdiv, Nat.shiftLeft_eq, Nat.one_shiftLeft,
    Nat.mul_div_cancel n (Nat.two_pow_pos k)]

namespace Number

/-! ## Fields -/

/-- The fields of a number whose bits are those of a finite magnitude. -/
theorem fields_of_bits {x : Number} {e f : Nat} (he : e < 2047) (hf : f < 2 ^ 52)
    (hbits : x.bits.toNat = e * 2 ^ 52 + f) :
    x.exponentField = e ∧ x.fraction = f ∧ x.isNegative = false := by
  refine ⟨?_, ?_, ?_⟩
  · rw [exponentField, hbits, Nat.shiftRight_eq_div_pow, Nat.one_shiftLeft]
    omega
  · rw [fraction, hbits, Nat.one_shiftLeft]
    omega
  · rw [isNegative, hbits]
    simp only [decide_eq_false_iff_not]
    omega

/-! ## Normal doubles -/

theorem toNat_bits_ofSignAndBits {bits : Nat} (h : bits < 2 ^ 64) :
    (ofSignAndBits false bits).bits.toNat = bits := UInt64.toNat_ofNat_of_lt' h

/-- The bits of a significand of fifty-three bits that is doubled. -/
theorem roundUnits_shiftLeft {n k : Nat} (hlow : 2 ^ 52 ≤ n) (hhigh : n < 2 ^ 53)
    (hk : k ≤ 2045) : roundUnits (n <<< k) 1 = (k + 1) * 2 ^ 52 + (n - 2 ^ 52) := by
  have hn : n ≠ 0 := by omega
  have hlog : (n <<< k).log2 = 52 + k := by
    have hpos := Nat.two_pow_pos k
    rw [Nat.shiftLeft_eq, Nat.log2_eq_iff (Nat.mul_ne_zero hn hpos.ne')]
    constructor
    · rw [Nat.pow_add]
      exact Nat.mul_le_mul_right _ hlow
    · rw [show 52 + k + 1 = 53 + k by omega, Nat.pow_add]
      exact Nat.mul_lt_mul_of_pos_right hhigh hpos
  have hshift : 52 + k - 52 = k := by omega
  rw [roundUnits, Nat.div_one, hlog]
  simp only [hshift, roundHalfEven_shiftLeft, Nat.shiftLeft_eq k, infinityBits]
  omega

/-- **A normal double is kept by rounding.** -/
theorem ofUnits_shiftLeft {n k : Nat} (hlow : 2 ^ 52 ≤ n) (hhigh : n < 2 ^ 53)
    (hk : k ≤ 2045) :
    (ofUnits false (n <<< k) 1).isFinite = true ∧
      (ofUnits false (n <<< k) 1).isNegative = false ∧
      (ofUnits false (n <<< k) 1).magnitude = n <<< k := by
  have hbits : (ofUnits false (n <<< k) 1).bits.toNat = (k + 1) * 2 ^ 52 + (n - 2 ^ 52) := by
    rw [ofUnits, roundUnits_shiftLeft hlow hhigh hk]
    exact toNat_bits_ofSignAndBits (by omega)
  obtain ⟨hexponent, hfraction, hsign⟩ := fields_of_bits (by omega) (by omega) hbits
  refine ⟨?_, hsign, ?_⟩
  · rw [isFinite, hexponent]
    simp only [decide_eq_true_eq]
    omega
  · rw [magnitude, significand, scale, hexponent, hfraction, if_neg (Nat.succ_ne_zero k),
      Nat.add_sub_cancel, Nat.one_shiftLeft, Nat.add_sub_of_le hlow]

/-! ## Integers -/

/-- No other natural number is rounded to zero: the nearest double is normal, or infinity. -/
theorem isZero_ofNat {n : Nat} (h : 0 < n) : (ofNat n).isZero = false := by
  have hlog : 1074 ≤ (n <<< 1074).log2 := by
    rw [Nat.le_log2 (by rw [Nat.shiftLeft_eq]; positivity), Nat.shiftLeft_eq]
    exact Nat.le_mul_of_pos_left _ h
  have hlow : 2 ^ 52 ≤ roundUnits (n <<< 1074) 1 := by
    have hshift : 1 ≤ (n <<< 1074).log2 - 52 := by omega
    rw [roundUnits, Nat.div_one]
    refine le_min ?_ (by decide)
    calc 2 ^ 52 ≤ ((n <<< 1074).log2 - 52) * 2 ^ 52 := Nat.le_mul_of_pos_left _ hshift
      _ = ((n <<< 1074).log2 - 52) <<< 52 := (Nat.shiftLeft_eq _ _).symm
      _ ≤ _ := Nat.le_add_right _ _
  have hhigh : roundUnits (n <<< 1074) 1 ≤ infinityBits := Nat.min_le_right _ _
  have hbits : (ofNat n).bits.toNat = roundUnits (n <<< 1074) 1 :=
    toNat_bits_ofSignAndBits (hhigh.trans_lt (by decide))
  have hexponent : (ofNat n).exponentField ≠ 0 := by
    rw [infinityBits] at hhigh
    rw [exponentField, hbits, Nat.shiftRight_eq_div_pow, Nat.one_shiftLeft]
    omega
  rw [isZero, beq_eq_false_iff_ne.2 hexponent, Bool.false_and]

/-- **Integers below 2⁵³ are exact.** -/
theorem toInt?_ofNat {n : Nat} (h : n < 2 ^ 53) : (ofNat n).toInt? = some (n : Int) := by
  by_cases hzero : n = 0
  · subst hzero
    decide +kernel
  -- The significand is the integer, doubled until it has fifty-three bits.
  have hlog : n.log2 < 53 := (Nat.log2_lt hzero).2 h
  have hsplit : n <<< 1074 = (n <<< (52 - n.log2)) <<< (1022 + n.log2) := by
    rw [← Nat.shiftLeft_add]
    congr 1
    omega
  have hplaces : n.log2 + (52 - n.log2) = 52 := by omega
  have hlow : 2 ^ 52 ≤ n <<< (52 - n.log2) := by
    calc 2 ^ 52 = 2 ^ n.log2 * 2 ^ (52 - n.log2) := by rw [← Nat.pow_add, hplaces]
      _ ≤ n * 2 ^ (52 - n.log2) := Nat.mul_le_mul_right _ (Nat.log2_self_le hzero)
      _ = n <<< (52 - n.log2) := (Nat.shiftLeft_eq _ _).symm
  have hhigh : n <<< (52 - n.log2) < 2 ^ 53 := by
    calc n <<< (52 - n.log2) = n * 2 ^ (52 - n.log2) := Nat.shiftLeft_eq _ _
      _ < 2 ^ (n.log2 + 1) * 2 ^ (52 - n.log2) :=
        Nat.mul_lt_mul_of_pos_right Nat.lt_log2_self (Nat.two_pow_pos _)
      _ = 2 ^ 53 := by rw [← Nat.pow_add, Nat.add_right_comm, hplaces]
  have hkept := ofUnits_shiftLeft hlow hhigh (k := 1022 + n.log2) (by omega)
  rw [← hsplit] at hkept
  obtain ⟨hfinite, hsign, hmagnitude⟩ := hkept
  rw [ofNat, ofQuotient, toInt?, units, hfinite, hsign, hmagnitude]
  simp only [shiftLeft_mod, tdiv_shiftLeft, Bool.true_and, beq_self_eq_true, if_true,
    Bool.false_eq_true, if_false]

end Number
end StackMachine
