import StackMachine.Command.Respond

/-!
# The program

The outer layer: it reads the file that a request names, looks up the answer, writes the file that
the answer holds, and prints.
-/

namespace StackMachine.Main

/-- The first answer that some number of steps is enough for. -/
partial def settle (fuel : Nat) (answer : Nat → Option Response) : Response :=
  match answer fuel with
  | some response => response
  | none => settle (2 * fuel) answer

/-- The reason of a failed access to a file. -/
def reason (e : IO.Error) : String :=
  match e with
  | .noFileOrDirectory .. => "No such file or directory (os error 2)"
  | e => e.toString

/-- The answer to a request, after the file that it names is read. -/
def answer (c : Command) : IO Response := do
  match c.input? with
  | none => pure (settle (1 <<< 20) fun fuel => c.respond fuel .numbered [])
  | some path =>
    match ← (IO.FS.readBinFile path).toBaseIO with
    | .ok bytes => pure (settle (1 <<< 20) fun fuel => c.respond fuel .numbered bytes.toList)
    | .error e => pure (c.unreadable path (reason e))

/-- The answer after the file that it holds is written. -/
def written (r : Response) : IO Response := do
  match r.write with
  | none => pure r
  | some ⟨path, bytes⟩ =>
    match ← (IO.FS.writeBinFile path ⟨bytes.toArray⟩).toBaseIO with
    | .ok _ => pure r
    | .error e => pure (Command.unwritable path (reason e))

end StackMachine.Main

open StackMachine in
/-- Answers the request of the command line. -/
def main (args : List String) : IO UInt32 := do
  match Command.ofArguments? args with
  | none =>
    IO.eprintln "usage: zoe asm|run|disasm|explain ..."
    pure 2
  | some c =>
    let r ← Main.written (← Main.answer c)
    IO.print r.output
    IO.eprint r.errors
    pure (if r.failed then 1 else 0)
