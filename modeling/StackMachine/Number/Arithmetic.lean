import StackMachine.Number.Rounding

/-!
# Arithmetic

The four operations and the order are those of IEEE-754 doubles. The remainder is exact: it is
taken on whole units and has the sign of the dividend.
-/

namespace StackMachine.Number

/-- The double as the arithmetic of the platform sees it. -/
def toFloat (x : Number) : Float := Float.ofBits x.bits

/-- The number that a result of the platform's arithmetic is. -/
def ofFloat (x : Float) : Number := ⟨x.toBits⟩

/-- The sum, rounded to the nearest double. -/
def add (x y : Number) : Number := ofFloat (x.toFloat + y.toFloat)

/-- The difference, rounded to the nearest double. -/
def sub (x y : Number) : Number := ofFloat (x.toFloat - y.toFloat)

/-- The product, rounded to the nearest double. -/
def mul (x y : Number) : Number := ofFloat (x.toFloat * y.toFloat)

/-- The quotient, rounded to the nearest double; by zero it is an infinity or a NaN. -/
def div (x y : Number) : Number := ofFloat (x.toFloat / y.toFloat)

/-- The remainder of a division that rounds toward zero. There is none of an infinity or by zero,
and dividing by an infinity leaves the dividend. -/
def rem (x y : Number) : Number :=
  if x.isNaN || y.isNaN || x.isInfinite || y.isZero then nan
  else if y.isInfinite then x
  else ofUnits x.isNegative (x.magnitude % y.magnitude) 1

/-- Whether one number is below another; a NaN is not comparable. -/
def lt (x y : Number) : Bool := x.toFloat < y.toFloat

/-- Whether one number is at most another; a NaN is not comparable. -/
def le (x y : Number) : Bool := x.toFloat ≤ y.toFloat

end StackMachine.Number
