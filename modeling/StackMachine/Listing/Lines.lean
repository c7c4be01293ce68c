/-!
# Lines of a text

Lines are separated by newlines. Places in a text are byte offsets of its UTF-8 form; a place has a
line and a column, both counted from one, and columns count bytes too.
-/

namespace StackMachine

/-- A range of bytes in a text. -/
structure Span where
  start : Nat := 0
  stop : Nat := 0
deriving DecidableEq, Repr

/-- The width of a span when it is pointed at: an empty span is one wide. -/
def Span.width (s : Span) : Nat := max 1 (s.stop - s.start)

namespace Listing

/-- The number of bytes of characters in UTF-8. -/
def byteLength (cs : List Char) : Nat := cs.foldr (fun c n => c.utf8Size + n) 0

/-- The lines of a text, without their newlines. There is always at least one. -/
def splitLines : List Char → List (List Char)
  | [] => [[]]
  | c :: cs =>
    if c = '\n' then [] :: splitLines cs
    else
      match splitLines cs with
      | [] => [[c]]
      | line :: lines => (c :: line) :: lines

/-- The line and column of an offset that is counted from the beginning of the first of the lines,
which has the given number. What lies past the end is on the last line. -/
def locate (number : Nat) (offset : Nat) : List (List Char) → Nat × Nat
  | [] => (number, offset + 1)
  | [_] => (number, offset + 1)
  | line :: next :: lines =>
    if offset ≤ byteLength line then (number, offset + 1)
    else locate (number + 1) (offset - (byteLength line + 1)) (next :: lines)

/-- The line and column of an offset in a text. -/
def lineAndColumn (source : String) (offset : Nat) : Nat × Nat :=
  locate 1 offset (splitLines source.toList)

/-- The number of the line of an offset. -/
def lineNumber (source : String) (offset : Nat) : Nat := (lineAndColumn source offset).1

/-- A line without the carriage return at its end. -/
def dropReturn (line : List Char) : List Char :=
  match line.getLast? with
  | some '\r' => line.dropLast
  | _ => line

/-- The text of the line with a number, or nothing if there is no such line. -/
def lineText (source : String) (number : Nat) : String :=
  match number with
  | 0 => ""
  | n + 1 =>
    match (splitLines source.toList)[n]? with
    | some line => String.ofList (dropReturn line)
    | none => ""

theorem splitLines_ne_nil (cs : List Char) : splitLines cs ≠ [] := by
  induction cs with
  | nil => simp [splitLines]
  | cons c cs ih =>
    rw [splitLines]
    split
    · simp
    · split <;> simp

end Listing
end StackMachine
