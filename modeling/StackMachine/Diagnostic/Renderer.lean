import StackMachine.Diagnostic.Display

/-!
# Diagnostics written line by line

A renderer writes a diagnostic line by line, and asks at every part with a style whether it writes
in colour. What it writes are the segments of the diagnostic, in colour or as plain text.
-/

namespace StackMachine

/-- A renderer of diagnostics. -/
structure Renderer where
  useColour : Bool
deriving DecidableEq, Repr

namespace Renderer

variable (r : Renderer)

/-- A part with a style. -/
def paint (style : Style) (text : String) : String :=
  if r.useColour then "\x1b[" ++ style.parameters ++ "m" ++ text ++ "\x1b[0m" else text

/-- The first line: the severity with the code, and the message. -/
def heading (d : Diagnostic) : String :=
  let severity := match d.severity, d.code with
    | .error, some code => r.paint .boldRed ("error[" ++ code ++ "]")
    | .error, none => r.paint .boldRed "error"
    | .warning, some code => r.paint .yellow ("warning[" ++ code ++ "]")
    | .warning, none => r.paint .yellow "warning"
  severity ++ ": " ++ r.paint .bold d.message ++ "\n"

/-- The lines that show a mark in the source. -/
def excerpt (source : String) (mark : Mark) : String :=
  let (line, column) := Listing.lineAndColumn source mark.span.start
  let lineText := Listing.lineText source line
  let gutter := (Text.decimal line).length
  let pipe := r.paint .cyan "|"
  let pad := Diagnostic.spaces gutter
  let indent := Diagnostic.spaces (column - 1)
  let carets := r.paint .boldRed (String.ofList (List.replicate mark.span.width '^'))
  let pointed :=
    if mark.message = "" then carets
    else carets ++ " " ++ r.paint .boldRed mark.message
  "  " ++ r.paint .cyan "-->" ++ " " ++ Text.decimal line ++ ":" ++ Text.decimal column ++ "\n" ++
    pad ++ " " ++ pipe ++ "\n" ++
    r.paint .cyan (Text.decimal line) ++ " " ++ pipe ++ " " ++ lineText ++ "\n" ++
    pad ++ " " ++ pipe ++ " " ++ indent ++ pointed ++ "\n" ++
    pad ++ " " ++ pipe ++ "\n"

/-- The lines of the first primary mark, if there is a source. -/
def primaryExcerpt (d : Diagnostic) : String :=
  match d.marks.find? (·.isPrimary), d.source with
  | some mark, some source => r.excerpt source mark
  | _, _ => ""

/-- The line of a mark that is not primary; none for one without a message. -/
def secondary (source : Option String) (mark : Mark) : String :=
  if mark.message = "" then ""
  else
    match source with
    | some source =>
      let (line, column) := Listing.lineAndColumn source mark.span.start
      "  " ++ r.paint .dim "=" ++ " " ++ mark.message ++ " at " ++ Text.decimal line ++ ":" ++
        Text.decimal column ++ "\n"
    | none => "  " ++ r.paint .dim "=" ++ " " ++ mark.message ++ "\n"

/-- A diagnostic as the renderer writes it. -/
def render (d : Diagnostic) : String :=
  r.heading d ++ r.primaryExcerpt d ++
    String.join ((d.marks.filter fun m => !m.isPrimary).map (r.secondary d.source)) ++
    String.join (d.notes.map fun note => "  " ++ r.paint .dim "=" ++ " note: " ++ note ++ "\n") ++
    (match d.suggestion with
      | some suggestion => "  " ++ r.paint .dim "=" ++ " suggestion: " ++ suggestion ++ "\n"
      | none => "") ++
    (if d.isInternal then
      "  " ++ r.paint .dim "=" ++ " note: the program or its producer is corrupt\n"
    else "")

end Renderer
end StackMachine
