import StackMachine.Command.Arguments
import StackMachine.Diagnostic.Catalogue
import StackMachine.Diagnostic.Renderer
import StackMachine.Diagnostic.Errors
import StackMachine.Diagnostic.Report
import StackMachine.Machine.Run

/-!
# Answering a request

What a request leads to, given the contents of the file that it reads: text on the two output
streams, perhaps a file to write, and whether it failed. A file that begins like a container is read
as one; any other file is read as a listing.
-/

namespace StackMachine

/-- A file to write. -/
structure FileWrite where
  path : String
  bytes : List UInt8

/-- What a request leads to. -/
structure Response where
  output : String := ""
  errors : String := ""
  write : Option FileWrite := none
  failed : Bool := false
deriving Inhabited

namespace Command

/-- The text of a diagnostic on the error stream. -/
def errorText (json : Bool) (d : Diagnostic) : String :=
  if json then d.report ++ "\n" else (Renderer.mk false).render d

/-- A request that failed. -/
def failure (json : Bool) (d : Diagnostic) : Response :=
  { errors := errorText json d, failed := true }

/-- The program of a listing in UTF-8 from the file of a path. -/
def assembleText (path : String) (bytes : List UInt8) : Except Diagnostic Program :=
  match textOfBytes? bytes with
  | none => .error { message := path ++ " is neither a ZB file nor UTF-8 text" }
  | some source =>
    (Listing.assemble source).mapError fun e => { e.diagnostic with source := some source }

/-- The program of the file of a path. -/
def loadProgram (path : String) (bytes : List UInt8) : Except Diagnostic Program :=
  if (containerMarker.take 5).isPrefixOf bytes then
    (Program.decode bytes).mapError FormatError.diagnostic
  else
    assembleText path bytes

/-- The diagnostic of a run that failed, with the instruction that it failed at. -/
def runtimeFailure (p : Program) (e : MachineError) : Diagnostic :=
  let d := e.diagnostic
  match e.offset?.map (decode p.code) with
  | some (.ok i) => { d with notes := d.notes ++ ["at " ++ i.text p] }
  | _ => d

/-- A listing is assembled. -/
def respondAssemble (listing : String) (output : Option String) (bytes : List UInt8) :
    Response :=
  match assembleText listing bytes with
  | .error d => failure false d
  | .ok p => { write := some ⟨output.getD (defaultOutput listing), p.encode⟩ }

/-- What a run that ended is answered with: each result on a line. -/
def outcomeResponse (json : Bool) (o : Outcome) : Response :=
  match o.result with
  | .ok values =>
    { output := String.join (values.toList.map fun v => o.machine.heap.render v ++ "\n")
      errors := o.sink.text }
  | .error e =>
    { errors := o.sink.text ++ errorText json (runtimeFailure o.machine.program e)
      failed := true }

/-- A program is run, if it ends within so many steps. -/
def respondRun (fuel : Nat) (file : String) (config : Config) (json : Bool)
    (bytes : List UInt8) : Option Response :=
  match loadProgram file bytes with
  | .error d => some (failure json d)
  | .ok p => (runWithin fuel config p {}).map (outcomeResponse json)

/-- A program is disassembled. -/
def respondDisassemble (file : String) (json : Bool) (bytes : List UInt8) : Response :=
  match loadProgram file bytes with
  | .error d => failure json d
  | .ok p =>
    let text := if json then p.disassembleJson.map (·.pretty ++ "\n") else p.disassemble
    match text with
    | .ok text => { output := text }
    | .error e => failure json (MachineError.undecodable e).diagnostic

/-- An error code is explained. -/
def respondExplain (code : String) : Response :=
  match Catalogue.find? code with
  | some e => { output := e.explanation }
  | none => failure false { message := "unknown error code '" ++ code ++ "'" }

/-- The answer to a request when the file that it reads cannot be read, for the given reason. -/
def unreadable (c : Command) (path reason : String) : Response :=
  failure c.reportsJson { message := "cannot read " ++ path ++ ": " ++ reason }

/-- The answer to a request whose file cannot be written, for the given reason. -/
def unwritable (path reason : String) : Response :=
  failure false { message := "cannot write " ++ path ++ ": " ++ reason }

/-- The answer to a request, given the contents of the file that it reads and where the payloads of
a run will be kept. A program that does not end within so many steps gives none. -/
def respond (fuel : Nat) (addresses : Addresses) (c : Command) (bytes : List UInt8) :
    Option Response :=
  match c with
  | .assemble listing output => some (respondAssemble listing output bytes)
  | .run file trace maxSteps json => respondRun fuel file { trace, maxSteps, addresses } json bytes
  | .disassemble file json => some (respondDisassemble file json bytes)
  | .explain code => some (respondExplain code)

end Command
end StackMachine
