/-!
# Numerals

Natural numbers in base ten and sixteen.
-/

namespace StackMachine.Text

/-- A decimal numeral. -/
def decimal (n : Nat) : String := String.ofList (Nat.toDigits 10 n)

/-- Digits with zeros before them up to a width. -/
def padDigits (width : Nat) (digits : List Char) : List Char :=
  List.replicate (width - digits.length) '0' ++ digits

/-- A hexadecimal numeral of at least so many digits. -/
def hex (width n : Nat) : String := String.ofList (padDigits width (Nat.toDigits 16 n))

end StackMachine.Text
