import StackMachine.Number.Basic

/-!
# Rounding

Every exact result is brought back to a double in one place: the nearest double to a quotient of
whole units, a tie going to the even significand.
-/

namespace StackMachine

/-- The integer nearest to `num / den`; of two equally near ones the even one. -/
def roundHalfEven (num den : Nat) : Nat :=
  let q := num / den
  let r := num % den
  if 2 * r < den then q
  else if den < 2 * r then q + 1
  else if q % 2 = 0 then q
  else q + 1

namespace Number

/-- The bits of positive infinity, read as an integer. The bits of the finite positive numbers are
the integers below, in the order of the numbers. -/
def infinityBits : Nat := 0x7ff0000000000000

/-- The bits of the double nearest to `num / den` units. With fifty-three significant bits the
quotient is rounded after dividing by two so often that they remain; a carry out of the significand
falls into the exponent field where it belongs. -/
def roundUnits (num den : Nat) : Nat :=
  let shift := (num / den).log2 - 52
  min (shift <<< 52 + roundHalfEven num (den <<< shift)) infinityBits

/-- A number from its sign and the bits of its magnitude. -/
def ofSignAndBits (negative : Bool) (magnitudeBits : Nat) : Number :=
  ⟨UInt64.ofNat (magnitudeBits + if negative then 1 <<< 63 else 0)⟩

/-- The number nearest to `num / den` units of 2⁻¹⁰⁷⁴. -/
def ofUnits (negative : Bool) (num den : Nat) : Number :=
  ofSignAndBits negative (roundUnits num den)

/-- The number nearest to the quotient `num / den`. -/
def ofQuotient (negative : Bool) (num den : Nat) : Number :=
  ofUnits negative (num <<< 1074) den

/-- The number nearest to a natural number. -/
def ofNat (n : Nat) : Number := ofQuotient false n 1

end Number
end StackMachine
