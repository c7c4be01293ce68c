/-!
# Numbers

A number of the machine is a double: an IEEE-754 binary64 value, kept as its bits so that every
NaN stays the one it was. A finite number is a whole multiple of the unit 2⁻¹⁰⁷⁴, the smallest
positive double, and everything that must be exact (equality, remainder, printing and reading) is
said of that multiple.
-/

namespace StackMachine

/-- A double, by its bits. -/
structure Number where
  bits : UInt64
deriving DecidableEq, Inhabited

namespace Number

/-! ## Fields -/

/-- Whether the sign bit is set. -/
def isNegative (x : Number) : Bool := 1 <<< 63 ≤ x.bits.toNat

/-- The eleven bits below the sign. -/
def exponentField (x : Number) : Nat := (x.bits.toNat >>> 52) % (1 <<< 11)

/-- The lowest fifty-two bits. -/
def fraction (x : Number) : Nat := x.bits.toNat % (1 <<< 52)

/-- Whether the number is finite: the exponent field is not full. -/
def isFinite (x : Number) : Bool := x.exponentField < 2047

/-- Whether the number is not a number. -/
def isNaN (x : Number) : Bool := !x.isFinite && x.fraction != 0

/-- Whether the number is one of the two infinities. -/
def isInfinite (x : Number) : Bool := !x.isFinite && x.fraction == 0

/-- Whether the number is zero, of either sign. -/
def isZero (x : Number) : Bool := x.exponentField == 0 && x.fraction == 0

/-! ## The exact value -/

/-- The integer significand: the fraction, with the leading one of a normal number. -/
def significand (x : Number) : Nat :=
  if x.exponentField = 0 then x.fraction else (1 <<< 52) + x.fraction

/-- How many doublings lead from the significand, counted in units, to the magnitude. -/
def scale (x : Number) : Nat := x.exponentField - 1

/-- The size of a finite number in units of 2⁻¹⁰⁷⁴. -/
def magnitude (x : Number) : Nat := x.significand <<< x.scale

/-- The value of a finite number in units of 2⁻¹⁰⁷⁴. -/
def units (x : Number) : Int :=
  if x.isNegative then -(x.magnitude : Int) else x.magnitude

/-- The integer that a number is exactly, if it is one. Both zeros are the integer zero. -/
def toInt? (x : Number) : Option Int :=
  if x.isFinite && x.magnitude % (1 <<< 1074) == 0 then
    some (x.units.tdiv (1 <<< 1074 : Nat))
  else
    none

/-! ## Particular numbers -/

/-- The number zero, with the positive sign. -/
def zero : Number := ⟨0⟩

/-- The quiet NaN with the positive sign. -/
def nan : Number := ⟨0x7ff8000000000000⟩

/-- Positive infinity. -/
def infinity : Number := ⟨0x7ff0000000000000⟩

/-- The number with the other sign; a NaN changes its sign bit too. -/
def neg (x : Number) : Number := ⟨x.bits ^^^ 0x8000000000000000⟩

/-- The number whose hash stands for all numbers equal to it by value: negative zero counts as
zero. -/
def unsignedZero (x : Number) : Number := if x.isZero then zero else x

/-! ## Equality -/

/-- Two finite numbers that are less than this many units apart count as equal. A difference is
rounded to a double before it is held against 2⁻⁵²; it is rounded to less than 2⁻⁵² exactly when it
is below 2⁻⁵² − 2⁻¹⁰⁶, the midpoint between 2⁻⁵² and the double before it. -/
def tolerance : Nat := ((1 <<< 54) - 1) <<< 968

/-- Equality of the machine: a NaN equals nothing, an infinity only itself, and finite numbers are
equal when they are closer than the tolerance. -/
def equals (x y : Number) : Bool :=
  if x.isFinite && y.isFinite then
    (x.units - y.units).natAbs < tolerance
  else
    !x.isNaN && x.bits == y.bits

theorem tolerance_pos : 0 < tolerance := by
  unfold tolerance
  generalize 968 = k
  rw [Nat.shiftLeft_eq]
  exact Nat.mul_pos (by decide) (Nat.two_pow_pos k)

theorem isNaN_eq_of_bits_eq {x y : Number} (h : x.bits = y.bits) : x.isNaN = y.isNaN := by
  obtain rfl : x = y := by cases x; cases y; simp_all
  rfl

theorem equals_comm (x y : Number) : x.equals y = y.equals x := by
  have hd : (x.units - y.units).natAbs = (y.units - x.units).natAbs := by omega
  rw [equals, equals, hd, Bool.and_comm]
  split
  · rfl
  · by_cases h : x.bits = y.bits
    · rw [isNaN_eq_of_bits_eq h, h]
    · have h' : ¬y.bits = x.bits := fun e => h e.symm
      rw [beq_eq_false_iff_ne.2 h, beq_eq_false_iff_ne.2 h', Bool.and_false, Bool.and_false]

theorem equals_self {x : Number} (h : x.isNaN = false) : x.equals x = true := by
  unfold equals
  split
  · simpa using tolerance_pos
  · simp [h]

end Number
end StackMachine
