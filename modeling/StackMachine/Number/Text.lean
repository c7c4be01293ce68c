import StackMachine.Number.Decimal

/-!
# Numbers as text

Two layouts of the shortest decimal (the one values print in and the one of JSON), and the reading
of a numeral back into a number.
-/

namespace StackMachine

/-! ## Layout -/

/-- How a decimal is laid out. -/
structure Decimal.Layout where
  /-- Whether a decimal whose first digit stands for this power of ten is written without an
  exponent. -/
  positional : Int → Bool
  /-- Whether an integer written without an exponent ends in `.0`. -/
  pointZero : Bool
  /-- Which of two equally near shortest decimals is taken. -/
  tie : Tie

namespace Decimal

/-- The digits with the point where the exponent puts it. -/
def positionalText (d : Decimal) (pointZero : Bool) : List Char :=
  let digits := Nat.toDigits 10 d.digits
  if 0 ≤ d.exponent then
    digits ++ List.replicate d.exponent.toNat '0' ++ if pointZero then ['.', '0'] else []
  else
    let places := (-d.exponent).toNat
    let padded := List.replicate (places + 1 - digits.length) '0' ++ digits
    padded.take (padded.length - places) ++ '.' :: padded.drop (padded.length - places)

/-- The power of ten of the first digit. -/
def leadingExponent (d : Decimal) : Int := d.exponent + (Nat.toDigits 10 d.digits).length - 1

/-- An exponent with its sign. -/
def exponentText (e : Int) : List Char :=
  (if e < 0 then '-' else '+') :: Nat.toDigits 10 e.natAbs

/-- One digit, a point before the others if there are any, and the power of ten. -/
def scientificText (d : Decimal) : List Char :=
  match Nat.toDigits 10 d.digits with
  | [] => []
  | [first] => first :: 'e' :: exponentText d.leadingExponent
  | first :: rest => first :: '.' :: rest ++ 'e' :: exponentText d.leadingExponent

/-- The text of a decimal in a layout. -/
def text (d : Decimal) (layout : Layout) : List Char :=
  if layout.positional d.leadingExponent then d.positionalText layout.pointZero
  else d.scientificText

end Decimal

namespace Number

/-! ## Printing -/

/-- A minus before the text of a negative number. -/
def withSign (x : Number) (text : List Char) : String :=
  String.ofList (if x.isNegative then '-' :: text else text)

/-- Values print positionally however long that is, an integer without a point, and a tie goes
up. -/
def valueLayout : Decimal.Layout where
  positional _ := true
  pointZero := false
  tie := .up

/-- JSON numbers keep `.0` and turn to an exponent below 10⁻⁵ and from 10¹⁶ on; a tie goes to
even. -/
def jsonLayout : Decimal.Layout where
  positional e := -5 ≤ e && e ≤ 15
  pointZero := true
  tie := .toEven

/-- A finite number that is not zero, in a layout. -/
def layoutText (x : Number) (layout : Decimal.Layout) : String :=
  x.withSign ((x.shortestDecimal layout.tie).text layout)

/-- The text of a number as a value. Integers below 10¹⁵ are written as integers, which loses the
sign of zero. -/
def text (x : Number) : String :=
  if x.isNaN then "nan"
  else if x.isInfinite then if x.isNegative then "-inf" else "inf"
  else
    match x.toInt? with
    | some n =>
      if n.natAbs < 1000000000000000 then
        String.ofList ((if n < 0 then ['-'] else []) ++ Nat.toDigits 10 n.natAbs)
      else x.layoutText valueLayout
    | none => x.layoutText valueLayout

/-- The text of a number in JSON, which has no infinities and no NaN. -/
def jsonText (x : Number) : String :=
  if x.isNaN || x.isInfinite then "null"
  else if x.isZero then x.withSign ['0', '.', '0']
  else x.layoutText jsonLayout

/-! ## Reading -/

/-- The number that decimal digits spell. -/
def digitsValue (digits : List Char) : Nat :=
  digits.foldl (fun n c => 10 * n + (c.toNat - '0'.toNat)) 0

/-- The exponent after `e`: digits, perhaps with a sign. -/
def exponentValue : List Char → Int
  | '-' :: digits => -(digitsValue digits : Int)
  | '+' :: digits => digitsValue digits
  | digits => digitsValue digits

/-- The decimal that an unsigned numeral spells: digits, perhaps a point with more digits, perhaps
an exponent. -/
def numeralDecimal (numeral : List Char) : Decimal :=
  let whole := numeral.takeWhile Char.isDigit
  let rest := numeral.dropWhile Char.isDigit
  let (places, rest) := match rest with
    | '.' :: rest => (rest.takeWhile Char.isDigit, rest.dropWhile Char.isDigit)
    | rest => ([], rest)
  let exponent := match rest with
    | _ :: rest => exponentValue rest
    | [] => 0
  ⟨digitsValue (whole ++ places), exponent - places.length⟩

/-- The number that a numeral spells, rounded to the nearest. -/
def ofNumeral : List Char → Number
  | '-' :: numeral => (numeralDecimal numeral).toNumber true
  | numeral => (numeralDecimal numeral).toNumber false

end Number
end StackMachine
