import StackMachine.Disassembly
import StackMachine.Machine.Execute

/-!
# Running

A machine runs by steps: while it stands before an instruction and its budget is not used up, the
instruction is decoded, traced and executed. A run that has not ended after some number of steps can
go on from where it is, so a run without an end is one that has not ended after any number.
-/

namespace StackMachine

/-! ## The trace -/

/-- Where the lines of a trace go. It may accept only so many. -/
structure Sink where
  capacity : Option Nat := none
  lines : Array String := #[]

namespace Sink

/-- A line is written, if it is accepted. -/
def write? (s : Sink) (line : String) : Option Sink :=
  match s.capacity with
  | none => some { s with lines := s.lines.push line }
  | some n => if s.lines.size < n then some { s with lines := s.lines.push line } else none

/-- Everything that was written, each line with its newline. -/
def text (s : Sink) : String := String.join (s.lines.toList.map (· ++ "\n"))

end Sink

/-- The operand stack as a line of the trace: as an array is rendered. -/
def Machine.stackLine (m : Machine) : String :=
  "      " ++ (Ref.array 0).bracketed
    (", ".intercalate (m.stack.toList.map (m.heap.renderIn [.array m.heap.arrays.size])))

/-! ## Steps -/

/-- A machine that runs, with its trace. -/
structure Run where
  machine : Machine
  sink : Sink := {}

/-- How a run ended, and what it left. -/
structure Outcome where
  machine : Machine
  sink : Sink
  result : Except MachineError (Array Value)

namespace Run

/-- A line is added to the trace if there is one. -/
def trace? (r : Run) (line : Unit → String) : Option Run :=
  if r.machine.config.trace then
    (r.sink.write? (line ())).map fun sink => { r with sink }
  else
    some r

/-- The run ends with an error. -/
def fail (r : Run) (e : MachineError) : Outcome := ⟨r.machine, r.sink, .error e⟩

/-- The run ends well. -/
def finish (r : Run) : Outcome := ⟨r.machine, r.sink, .ok r.machine.results⟩

/-- Whether the budget of steps is used up, and how large it was. -/
def exhausted? (m : Machine) : Option Nat :=
  match m.config.maxSteps with
  | some limit => if limit ≤ m.steps then some limit else none
  | none => none

/-- What follows an instruction that was executed. -/
def follow (r : Run) (i : Instruction) : Flow → Run ⊕ Outcome
  | .next => .inl { r with machine := { r.machine with ip := i.next } }
  | .jump target => .inl { r with machine := { r.machine with ip := target } }
  | .halt => .inr r.finish

/-- An instruction is traced and executed. -/
def perform (r : Run) (i : Instruction) : Run ⊕ Outcome :=
  match r.trace? fun _ => i.text r.machine.program with
  | none => .inr (r.fail .traceRefused)
  | some ⟨machine, sink⟩ =>
    match Machine.execute i machine with
    | .error fault m => .inr (fail ⟨m, sink⟩ (.fault i.offset fault))
    | .ok flow m =>
      match trace? ⟨m, sink⟩ fun _ => m.stackLine with
      | none => .inr (fail ⟨m, sink⟩ .traceRefused)
      | some r => r.follow i flow

/-- One step of a run: it goes on, or it has ended. -/
def step (r : Run) : Run ⊕ Outcome :=
  if r.machine.ip < r.machine.program.code.size then
    match exhausted? r.machine with
    | some limit => .inr (r.fail (.stepLimit limit))
    | none =>
      match decode r.machine.program.code r.machine.ip with
      | .error e =>
        .inr (fail { r with machine := { r.machine with steps := r.machine.steps + 1 } }
          (.undecodable e))
      | .ok i =>
        perform { r with machine := { r.machine with steps := r.machine.steps + 1 } } i
  else
    .inr r.finish

/-- A run after at most so many steps. -/
def advance (r : Run) : Nat → Run ⊕ Outcome
  | 0 => .inl r
  | n + 1 =>
    match r.step with
    | .inl r => r.advance n
    | .inr o => .inr o

end Run

/-- The run of the program of a machine from its beginning. -/
def Machine.begin (m : Machine) (sink : Sink) : Run := ⟨m.restart, sink⟩

/-- How the run of a program ends, if it does within so many steps. -/
def runWithin (fuel : Nat) (config : Config) (program : Program) (sink : Sink) :
    Option Outcome :=
  match Run.advance ⟨.start config program, sink⟩ fuel with
  | .inl _ => none
  | .inr o => some o

end StackMachine
