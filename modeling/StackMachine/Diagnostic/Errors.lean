import StackMachine.Diagnostic.Basic
import StackMachine.Listing.Reader
import StackMachine.Machine.Basic

/-!
# Diagnostics of errors

The diagnostic of each kind of error: its code, its message without the place, and the places that
it marks.
-/

namespace StackMachine

/-! ## Container files -/

/-- The code of a format error. -/
def FormatError.code : FormatError → String
  | truncatedHeader _ => "ZOE-F001"
  | badMarker => "ZOE-F002"
  | badPoolOffset _ _ => "ZOE-F003"
  | unterminatedString _ | invalidText _ | truncatedHash _ => "ZOE-F004"
  | hashMismatch _ _ _ => "ZOE-F005"

/-- The diagnostic of a format error. -/
def FormatError.diagnostic (e : FormatError) : Diagnostic where
  code := some e.code
  message := e.message
  suggestion :=
    match e with
    | badMarker => some "assemble listings first with `zoe asm`"
    | _ => none

/-! ## Assembling -/

/-- The code of an assembly error. -/
def AssemblyError.code : AssemblyError → String
  | invalidOperand _ _ => "ZOE-A001"
  | duplicateName _ => "ZOE-A002"
  | unknownName _ => "ZOE-A003"
  | poolFull => "ZOE-A004"
  | unresolvedLabel _ _ => "ZOE-A005"
  | foreignLabel _ => "ZOE-I002"
  | scopeUnderflow => "ZOE-I003"

/-- The diagnostic of an assembly error. -/
def AssemblyError.diagnostic (e : AssemblyError) : Diagnostic where
  code := some e.code
  message := e.message

/-! ## Listings -/

/-- The diagnostic of a listing error, without the listing. A label of the listing that is never
defined is a slip of its author, and is reported by its name. -/
def Listing.Error.diagnostic (e : Listing.Error) : Diagnostic :=
  match e.cause with
  | .unexpectedInput _ =>
    { code := some "ZOE-L001", message := e.cause.message, marks := [⟨e.span, "here", true⟩] }
  | .malformed _ =>
    { code := some "ZOE-L002", message := e.cause.message, marks := [⟨e.span, "here", true⟩] }
  | .duplicateLabel _ first =>
    { code := some "ZOE-L002", message := e.cause.message
      marks := [⟨e.span, "defined again here", true⟩, ⟨first, "first defined here", false⟩] }
  | .assembly (.unresolvedLabel _ (some name)) =>
    { code := some "ZOE-L003", message := "label '" ++ name ++ "' is never defined"
      marks := [⟨e.span, "first used here", true⟩]
      suggestion := some ("add a line `" ++ name ++ ":` where the jump should land") }
  | .assembly error =>
    { error.diagnostic with marks := [⟨e.span, "here", true⟩] }

/-! ## Running -/

/-- The code of a fault. -/
def Fault.code : Fault → String
  | stackUnderflow => "ZOE-R001"
  | stackOverflow _ => "ZOE-R002"
  | typeMismatch _ _ => "ZOE-R003"
  | access _ => "ZOE-R004"
  | arityMismatch _ _ => "ZOE-R005"
  | invalidFlags _ => "ZOE-R006"
  | scopeUnderflow => "ZOE-I003"
  | variableOutOfRange _ _ => "ZOE-I006"
  | invalidJump _ => "ZOE-I007"
  | missingString _ => "ZOE-I008"

/-- The code of a machine error. -/
def MachineError.code : MachineError → String
  | format e => e.code
  | undecodable (.unknownOpcode _ _) => "ZOE-I004"
  | undecodable _ => "ZOE-I005"
  | fault _ why => why.code
  | stepLimit _ => "ZOE-R007"
  | traceRefused => "ZOE-R008"

/-- The diagnostic of a machine error. -/
def MachineError.diagnostic (e : MachineError) : Diagnostic :=
  match e with
  | format f => f.diagnostic
  | stepLimit _ =>
    { code := some e.code, message := e.message
      suggestion := some "raise --max-steps or check for a loop that never exits" }
  | e => { code := some e.code, message := e.message }

end StackMachine
