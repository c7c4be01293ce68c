import StackMachine.Diagnostic.Basic
import StackMachine.Text.Numeral

/-!
# Diagnostics for a terminal

A diagnostic is laid out as segments of text, some with a style. The plain text is that of the
segments; in colour, the same text stands with every styled segment between the codes that begin
and end its style.
-/

namespace StackMachine

/-! ## Segments -/

/-- How a segment is shown. -/
inductive Style where
  | bold
  | boldRed
  | yellow
  | cyan
  | dim
deriving DecidableEq, Repr

/-- The parameters of the control sequence that begins a style. -/
def Style.parameters : Style → String
  | bold => "1"
  | boldRed => "1;31"
  | yellow => "1;33"
  | cyan => "36"
  | dim => "2"

/-- Text of one style, or of none. -/
structure Segment where
  style : Option Style := none
  text : String
deriving DecidableEq, Repr

/-- A control sequence of the terminal. -/
def controlSequence (parameters : String) : String := "\x1b[" ++ parameters ++ "m"

/-- The text of a segment in colour. -/
def Segment.coloured (s : Segment) : String :=
  match s.style with
  | some style => controlSequence style.parameters ++ s.text ++ controlSequence "0"
  | none => s.text

namespace Diagnostic

/-- Text without a style. -/
def bare (text : String) : Segment := { text }

/-- Text of a style. -/
def styled (style : Style) (text : String) : Segment := { style := some style, text }

/-! ## Layout -/

/-- The severity with the code, and the message. -/
def heading (d : Diagnostic) : List Segment :=
  let name := match d.code with
    | some code => d.severity.name ++ "[" ++ code ++ "]"
    | none => d.severity.name
  let style : Style := match d.severity with
    | .error => .boldRed
    | .warning => .yellow
  [styled style name, bare ": ", styled .bold d.message, bare "\n"]

/-- So many spaces. -/
def spaces (n : Nat) : String := String.ofList (List.replicate n ' ')

/-- A mark with its line of the source, pointed at from below. -/
def excerpt (source : String) (mark : Mark) : List Segment :=
  let (line, column) := Listing.lineAndColumn source mark.span.start
  let number := Text.decimal line
  let pad := spaces number.length
  let carets := String.ofList (List.replicate mark.span.width '^')
  [bare "  ", styled .cyan "-->",
    bare (" " ++ number ++ ":" ++ Text.decimal column ++ "\n" ++ pad ++ " "), styled .cyan "|",
    bare "\n", styled .cyan number, bare " ", styled .cyan "|",
    bare (" " ++ Listing.lineText source line ++ "\n" ++ pad ++ " "), styled .cyan "|",
    bare (" " ++ spaces (column - 1)), styled .boldRed carets] ++
  (if mark.message = "" then [] else [bare " ", styled .boldRed mark.message]) ++
  [bare ("\n" ++ pad ++ " "), styled .cyan "|", bare "\n"]

/-- The excerpt of the first primary mark. -/
def primaryExcerpt (d : Diagnostic) : List Segment :=
  match d.marks.find? (·.isPrimary), d.source with
  | some mark, some source => excerpt source mark
  | _, _ => []

/-- A line below the heading that begins with an equals sign. -/
def remark (text : String) : List Segment :=
  [bare "  ", styled .dim "=", bare (" " ++ text ++ "\n")]

/-- The remark of a mark that is not primary, with its place if there is a source. -/
def secondary (d : Diagnostic) (mark : Mark) : List Segment :=
  if mark.message = "" then []
  else
    match d.source with
    | some source =>
      let (line, column) := Listing.lineAndColumn source mark.span.start
      remark (mark.message ++ " at " ++ Text.decimal line ++ ":" ++ Text.decimal column)
    | none => remark mark.message

/-- The diagnostic as segments. -/
def segments (d : Diagnostic) : List Segment :=
  d.heading ++ d.primaryExcerpt ++
    (d.marks.filter fun m => !m.isPrimary).flatMap d.secondary ++
    d.notes.flatMap (fun note => remark ("note: " ++ note)) ++
    (match d.suggestion with
      | some s => remark ("suggestion: " ++ s)
      | none => []) ++
    (if d.isInternal then remark "note: the program or its producer is corrupt" else [])

/-- The diagnostic as plain text. -/
def plain (d : Diagnostic) : String := String.join (d.segments.map Segment.text)

/-- The diagnostic in colour. -/
def coloured (d : Diagnostic) : String := String.join (d.segments.map Segment.coloured)

end Diagnostic
end StackMachine
