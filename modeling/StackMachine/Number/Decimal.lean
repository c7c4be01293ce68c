import StackMachine.Number.Rounding

/-!
# Decimals

The shortest decimal of a number: among the decimals that round to it, one with the fewest digits,
and of those the nearest. Powers of ten are tried from large to small; on the grid of each power the
two neighbours of the number are tested against the interval of reals that round to it. The grid of
10⁻¹⁰⁷⁴ holds every finite number, so the search ends there at the latest.
-/

namespace StackMachine

/-- The decimal `digits · 10 ^ exponent`. -/
structure Decimal where
  digits : Nat
  exponent : Int
deriving DecidableEq, Repr

/-- Which of two equally near candidates is taken. -/
inductive Tie where
  | up
  | toEven
deriving DecidableEq

namespace Number

/-- Four times the magnitude in units, so that the ends of the rounding interval are integers. -/
def quarters (x : Number) : Nat := (4 * x.significand) <<< x.scale

/-- The lower end of the rounding interval in quarter units. Below a power of two the next double is
only half as far away. -/
def lowerQuarters (x : Number) : Nat :=
  (4 * x.significand - if x.fraction = 0 ∧ 1 < x.exponentField then 1 else 2) <<< x.scale

/-- The upper end of the rounding interval in quarter units. -/
def upperQuarters (x : Number) : Nat := (4 * x.significand + 2) <<< x.scale

/-- Whether a value in quarter units rounds to the number. The ends of the interval do when the
significand is even. -/
def roundsTo (x : Number) (num den : Nat) : Bool :=
  if x.significand % 2 = 0 then
    x.lowerQuarters * den ≤ num && num ≤ x.upperQuarters * den
  else
    x.lowerQuarters * den < num && num < x.upperQuarters * den

/-- Ten to an exponent of either sign, as a quotient. -/
def tenPower (k : Int) : Nat × Nat := (Nat.pow 10 k.toNat, Nat.pow 10 (-k).toNat)

/-- The value `digits · 10 ^ k` in quarter units, as a quotient. -/
def decimalQuarters (digits : Nat) (k : Int) : Nat × Nat :=
  ((digits * (tenPower k).1) <<< 1076, (tenPower k).2)

/-- The neighbour of the number on the grid of `10 ^ k` that rounds to it. Of two such neighbours
the nearer is taken. -/
def onGrid? (x : Number) (tie : Tie) (k : Int) : Option Nat :=
  let grid := (tenPower k).1 <<< 1076
  let value := x.quarters * (tenPower k).2
  let below := value / grid
  let inside (digits : Nat) : Bool :=
    x.roundsTo (decimalQuarters digits k).1 (decimalQuarters digits k).2
  match inside below, inside (below + 1) with
  | true, true =>
    if 2 * value < (2 * below + 1) * grid then some below
    else if (2 * below + 1) * grid < 2 * value then some (below + 1)
    else match tie with
      | .up => some (below + 1)
      | .toEven => some (if below % 2 = 0 then below else below + 1)
  | true, false => some below
  | false, true => some (below + 1)
  | false, false => none

/-- The first of the grids `10 ^ k, 10 ^ (k - 1), …` with a neighbour that rounds to the number. -/
def searchGrids (x : Number) (tie : Tie) (k : Int) : Nat → Option Decimal
  | 0 => none
  | count + 1 =>
    match x.onGrid? tie k with
    | some digits => some ⟨digits, k⟩
    | none => searchGrids x tie (k - 1) count

/-- A power of ten above the magnitude, found from the power of two below it; 30103 / 100000 is a
little more than the logarithm of two. -/
def topExponent (x : Number) : Int :=
  ((x.magnitude.log2 : Int) - 1074 + 1) * 30103 / 100000 + 2

/-- All digits of a number: its magnitude as a multiple of 10⁻¹⁰⁷⁴. -/
def exactDecimal (x : Number) : Decimal := ⟨x.magnitude * Nat.pow 5 1074, -1074⟩

/-- The shortest decimal of a finite number that is not zero, without its sign. -/
def shortestDecimal (x : Number) (tie : Tie) : Decimal :=
  (x.searchGrids tie x.topExponent (x.topExponent + 1075).toNat).getD x.exactDecimal

end Number

/-- The number nearest to a decimal. Exponents so large or small that the result can only be an
infinity or zero are settled before a power of ten is computed. -/
def Decimal.toNumber (d : Decimal) (negative : Bool) : Number :=
  if d.digits = 0 ∨ d.exponent + d.digits.log2 + 1 < -330 then
    Number.ofSignAndBits negative 0
  else if 310 < d.exponent then
    Number.ofSignAndBits negative Number.infinityBits
  else
    Number.ofQuotient negative (d.digits * (Number.tenPower d.exponent).1)
      (Number.tenPower d.exponent).2

end StackMachine
