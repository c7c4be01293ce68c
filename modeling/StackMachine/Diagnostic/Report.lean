import StackMachine.Diagnostic.Basic
import StackMachine.Json

/-!
# Diagnostics for programs

A diagnostic as one line of JSON. Members stand in the order of their names.
-/

namespace StackMachine

/-- A mark, with its line and column if there is a source. -/
def Mark.toJson (source : Option String) (m : Mark) : Json :=
  let place := source.map fun source => Listing.lineAndColumn source m.span.start
  .object <|
    (match place with
      | some (_, column) => [("col", .natural column)]
      | none => []) ++
    [("end", .natural m.span.stop)] ++
    (match place with
      | some (line, _) => [("line", .natural line)]
      | none => []) ++
    [("message", .string m.message), ("primary", .bool m.isPrimary),
      ("start", .natural m.span.start)]

/-- A diagnostic as JSON. -/
def Diagnostic.toJson (d : Diagnostic) : Json :=
  .object <|
    (match d.code with
      | some code => [("code", .string code)]
      | none => []) ++
    [("internal", .bool d.isInternal), ("labels", .array (d.marks.map (Mark.toJson d.source))),
      ("message", .string d.message), ("notes", .array (d.notes.map .string)),
      ("severity", .string d.severity.name)] ++
    (match d.suggestion with
      | some s => [("suggestion", .string s)]
      | none => [])

/-- A diagnostic as a line of JSON. -/
def Diagnostic.report (d : Diagnostic) : String := d.toJson.compact

end StackMachine
