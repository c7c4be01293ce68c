import StackMachine.Instruction
import StackMachine.Value.Basic

/-!
# Programs

A finished program: its code, and the pool of strings that the code refers to by index.
-/

namespace StackMachine

/-- A string of the pool with its hash. -/
structure PoolEntry where
  text : String
  hash : UInt64
deriving DecidableEq

/-- The pool entry of a text, with the structural hash of that text. -/
def PoolEntry.ofText (text : String) : PoolEntry := ⟨text, hashText text⟩

/-- A program. -/
structure Program where
  code : Array UInt8 := #[]
  strings : Array PoolEntry := #[]
deriving DecidableEq

end StackMachine
