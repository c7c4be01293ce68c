import StackMachine.Listing.Token

/-!
# Reading tokens

The characters of a listing are cut into pieces, each a token, something to skip, or something that
no token begins with. Every piece takes at least one character.
-/

namespace StackMachine.Listing

/-- What the characters at a place begin with. -/
inductive Piece where
  | blank
  | token (t : Token)
  | unexpected

/-- The piece that a name makes: a label definition if a colon follows. -/
def namePiece (name rest : List Char) : Piece × Nat :=
  match rest with
  | ':' :: _ => (.token (.labelDef (String.ofList name)), name.length)
  | _ => (.token (.word (String.ofList name)), name.length - 1)

/-- The piece that a quote makes, with what follows it. -/
def literalPiece (cs : List Char) : Piece × Nat :=
  match literalEnd cs with
  | .broken length => (.unexpected, length)
  | .closed length =>
    match unescape? (cs.take length) with
    | some body => (.token (.text (String.ofList body)), length + 1)
    | none => (.unexpected, length + 1)

/-- The piece that a character makes with those that follow it, and how many of those it takes. -/
def piece (c : Char) (cs : List Char) : Piece × Nat :=
  if c = '\n' then (.token .newline, 0)
  else if isBlank c then (.blank, 0)
  else if c = ';' then (.blank, (cs.takeWhile (· ≠ '\n')).length)
  else if isNameStart c then
    namePiece (c :: cs.takeWhile isNamePart) (cs.dropWhile isNamePart)
  else if c.isDigit then
    let length := numeralLength (c :: cs)
    (.token (.number (String.ofList ((c :: cs).take length))), length - 1)
  else if c = '-' then
    let length := numeralLength cs
    if length = 0 then (.token .minus, 0)
    else (.token (.number (String.ofList ('-' :: cs.take length))), length)
  else if c = '"' then literalPiece cs
  else (.unexpected, 0)

/-- Text that no token begins with. -/
structure Unexpected where
  span : Span
  snippet : String
deriving DecidableEq

/-- The tokens of the characters from an offset on. -/
def lexFrom (offset : Nat) : List Char → Except Unexpected (List Lexeme)
  | [] => .ok []
  | c :: cs =>
    let taken := c :: cs.take (piece c cs).2
    let span : Span := ⟨offset, offset + byteLength taken⟩
    have : (cs.drop (piece c cs).2).length < cs.length + 1 := by
      rw [List.length_drop]
      omega
    match (piece c cs).1 with
    | .blank => lexFrom span.stop (cs.drop (piece c cs).2)
    | .token t => (lexFrom span.stop (cs.drop (piece c cs).2)).map (⟨t, span⟩ :: ·)
    | .unexpected => .error ⟨span, String.ofList taken⟩
termination_by cs => cs.length
decreasing_by all_goals exact this

/-- The tokens of a listing. -/
def lex (source : String) : Except Unexpected (List Lexeme) := lexFrom 0 source.toList

end StackMachine.Listing
