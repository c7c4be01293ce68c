import StackMachine.Listing.Lines

/-!
# Tokens of a listing

A listing is read as tokens. Blanks, carriage returns and comments from a semicolon to the end of
the line stand between tokens and are skipped. Of two tokens that could begin at a place the longer
one is taken.
-/

namespace StackMachine.Listing

/-- A token. -/
inductive Token where
  /-- A name with a colon after it. -/
  | labelDef (name : String)
  | word (name : String)
  /-- A numeral, kept as its text so that integers do not pass through doubles. -/
  | number (text : String)
  /-- The text that a literal stands for. -/
  | text (s : String)
  | minus
  | newline
deriving DecidableEq

/-- A token with the bytes that it takes. -/
structure Lexeme where
  token : Token
  span : Span
deriving DecidableEq

/-! ## Characters -/

/-- The characters that a name begins with. -/
def isNameStart (c : Char) : Bool := c.isAlpha || c = '_'

/-- The characters that a name goes on with. -/
def isNamePart (c : Char) : Bool := c.isAlphanum || c = '_' || c = '.'

/-- The characters that may stand between tokens. -/
def isBlank (c : Char) : Bool := c = ' ' || c = '\t' || c = '\r'

/-! ## Numerals -/

/-- The digits that characters begin with. -/
def digitsLength (cs : List Char) : Nat := (cs.takeWhile Char.isDigit).length

/-- The decimal places that characters begin with: a point with digits after it. -/
def placesLength : List Char → Nat
  | '.' :: cs => if digitsLength cs = 0 then 0 else 1 + digitsLength cs
  | _ => 0

/-- The sign that characters begin with. -/
def signLength : List Char → Nat
  | '+' :: _ | '-' :: _ => 1
  | _ => 0

/-- The exponent that characters begin with: a letter, perhaps a sign, and digits. -/
def exponentLength : List Char → Nat
  | [] => 0
  | c :: cs =>
    let digits := digitsLength (cs.drop (signLength cs))
    if (c = 'e' ∨ c = 'E') ∧ digits ≠ 0 then 1 + signLength cs + digits else 0

/-- The unsigned numeral that characters begin with; it begins with a digit. -/
def numeralLength (cs : List Char) : Nat :=
  let whole := digitsLength cs
  let places := placesLength (cs.drop whole)
  if whole = 0 then 0
  else whole + places + exponentLength (cs.drop (whole + places))

/-! ## Text literals -/

/-- Where the body of a literal ends. -/
inductive LiteralEnd where
  /-- A quote stands after so many characters. -/
  | closed (length : Nat)
  /-- No literal goes on after so many characters. -/
  | broken (length : Nat)
deriving DecidableEq, Repr

/-- The end of a literal moved by some characters. -/
def LiteralEnd.shift (n : Nat) : LiteralEnd → LiteralEnd
  | closed length => closed (n + length)
  | broken length => broken (n + length)

/-- The end of the literal whose body begins here. A body holds no newline, and a quote only after
a backslash. -/
def literalEnd : List Char → LiteralEnd
  | [] => .broken 0
  | '"' :: _ => .closed 0
  | '\n' :: _ => .broken 0
  | ['\\'] => .broken 1
  | '\\' :: '\n' :: _ => .broken 1
  | '\\' :: _ :: cs => (literalEnd cs).shift 2
  | _ :: cs => (literalEnd cs).shift 1

/-- The character that an escape stands for. -/
def escaped? : Char → Option Char
  | 'n' => some '\n'
  | 't' => some '\t'
  | 'r' => some '\r'
  | '0' => some '\x00'
  | '"' => some '"'
  | '\\' => some '\\'
  | _ => none

/-- The text of a literal body, if all its escapes are known. -/
def unescape? : List Char → Option (List Char)
  | [] => some []
  | '\\' :: c :: cs => do
    let d ← escaped? c
    let rest ← unescape? cs
    pure (d :: rest)
  | ['\\'] => none
  | c :: cs => (unescape? cs).map (c :: ·)

end StackMachine.Listing
