import StackMachine.Listing.Lines

/-!
# Diagnostics

What is told to the user about an error: a message, a code of the catalogue, the places in the
source that it is about, and what else helps.
-/

namespace StackMachine

/-- How grave a diagnostic is. -/
inductive Severity where
  | error
  | warning
deriving DecidableEq, Repr

/-- The name of a severity. -/
def Severity.name : Severity → String
  | error => "error"
  | warning => "warning"

/-- A place in the source with a remark. The first primary one is shown with its line. -/
structure Mark where
  span : Span
  message : String
  isPrimary : Bool
deriving DecidableEq, Repr

/-- A report to the user. -/
structure Diagnostic where
  severity : Severity := .error
  code : Option String := none
  message : String
  marks : List Mark := []
  notes : List String := []
  suggestion : Option String := none
  /-- The text that the spans are places of. -/
  source : Option String := none
deriving DecidableEq, Repr

/-- Whether the diagnostic points at a corrupt program or its producer, as its code says. -/
def Diagnostic.isInternal (d : Diagnostic) : Bool :=
  match d.code with
  | some code => "ZOE-I".toList.isPrefixOf code.toList
  | none => false

end StackMachine
