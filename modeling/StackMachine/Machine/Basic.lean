import StackMachine.Program.Container
import StackMachine.Value.Access
import StackMachine.Value.Equality

/-!
# The machine

The state of a machine: its program and limits, where it stands in the code, the operand stack, the
variables with the marks of the open scopes, the return addresses of the open calls, and the heap.
-/

namespace StackMachine

/-! ## Faults -/

/-- Why an instruction fails. -/
inductive Fault where
  | stackUnderflow
  | stackOverflow (limit : Nat)
  | variableOutOfRange (index length : Nat)
  | scopeUnderflow
  | typeMismatch (opcode : Opcode) (found : String)
  | access (error : AccessError)
  | arityMismatch (expected found : Nat)
  | invalidJump (target : Nat)
  | missingString (index : Nat)
  | invalidFlags (found : String)
deriving DecidableEq, Repr

/-- The message of the fault of the instruction at an offset. -/
def Fault.message (offset : Nat) : Fault → String
  | stackUnderflow => "operand stack underflow at offset " ++ Text.decimal offset
  | stackOverflow limit =>
    "operand stack exceeded " ++ Text.decimal limit ++ " slots at offset " ++ Text.decimal offset
  | variableOutOfRange index length =>
    "variable " ++ Text.decimal index ++ " out of range, " ++ Text.decimal length ++ " defined" ++
      place
  | scopeUnderflow => "POPS without a matching PSHS at offset " ++ Text.decimal offset
  | typeMismatch opcode found => opcode.mnemonic ++ " cannot operate on " ++ found ++ place
  | access error => error.message ++ place
  | arityMismatch expected found =>
    "expected " ++ Text.decimal expected ++ " values, got " ++ Text.decimal found ++ place
  | invalidJump target => "jump target " ++ Text.decimal target ++ " outside code" ++ place
  | missingString index => "string pool has no entry " ++ Text.decimal index ++ place
  | invalidFlags found => "table flags must be an integer in 0..=3, got " ++ found ++ place
where
  /-- The place that ends a message. -/
  place : String := " (offset " ++ Text.decimal offset ++ ")"

/-- Why a machine stops without a result. -/
inductive MachineError where
  | format (error : FormatError)
  | undecodable (error : DecodeError)
  | fault (offset : Nat) (why : Fault)
  | stepLimit (limit : Nat)
  /-- A line of the trace was not accepted. -/
  | traceRefused
deriving DecidableEq, Repr

namespace MachineError

/-- The message of a machine error. -/
def message : MachineError → String
  | format error => error.message
  | undecodable error => error.message
  | fault offset why => why.message offset
  | stepLimit limit => "step budget of " ++ Text.decimal limit ++ " instructions exhausted"
  | traceRefused => "trace output failed: sink closed"

/-- Whether the error means that the program is corrupt, and not that it behaves badly. -/
def isInternal : MachineError → Bool
  | undecodable _ => true
  | fault _ (.variableOutOfRange _ _) => true
  | fault _ .scopeUnderflow => true
  | fault _ (.invalidJump _) => true
  | fault _ (.missingString _) => true
  | _ => false

/-- The offset of the instruction that failed, if one did. -/
def offset? : MachineError → Option Nat
  | undecodable (.unknownOpcode offset _) => some offset
  | undecodable (.truncated offset _ _ _) => some offset
  | undecodable (.outOfBounds offset) => some offset
  | fault offset _ => some offset
  | format _ | stepLimit _ | traceRefused => none

end MachineError

/-! ## State -/

/-- The limits of a machine, whether it writes a trace, and where its payloads will be kept, over
which it has no say. -/
structure Config where
  trace : Bool := false
  /-- How many instructions may be executed. -/
  maxSteps : Option Nat := none
  /-- How many values the operand stack may hold, and how many calls may be open. -/
  maxStack : Nat := 1 <<< 20
  addresses : Addresses := default

/-- A machine. -/
structure Machine where
  config : Config := {}
  program : Program := {}
  /-- The offset of the next instruction. -/
  ip : Nat := 0
  /-- The operand stack, top last. It begins with a nil. -/
  stack : Array Value := #[.nil]
  /-- The values of the variables, by their indices. -/
  slots : Array Value := #[]
  /-- How many variables there were when each open scope was opened, innermost first. -/
  marks : List Nat := []
  /-- The return addresses of the open calls, innermost last. -/
  frames : Array Nat := #[]
  steps : Nat := 0
  /-- Whether the nil that the stack begins with was never taken off. -/
  pristine : Bool := true
  heap : Heap := {}

namespace Machine

/-- A machine that is about to run a program. -/
def start (config : Config) (program : Program) : Machine := { config, program }

/-- The machine at the beginning of its program. Nothing refers any more to the containers that were
made before, but they stay in the heap. -/
def restart (m : Machine) : Machine :=
  { m with ip := 0, stack := #[.nil], slots := #[], marks := [], frames := #[], steps := 0
           pristine := true }

/-- The machine with the program of a file. -/
def load (m : Machine) (bytes : List UInt8) : Except MachineError Machine :=
  match Program.decode bytes with
  | .ok program => .ok { m with program }
  | .error e => .error (.format e)

/-- What a finished machine gives: its stack, without the nil at the bottom if that was never taken
off and other values are above it. -/
def results (m : Machine) : Array Value :=
  if m.pristine && 1 < m.stack.size then m.stack.extract 1 m.stack.size else m.stack

end Machine
end StackMachine
