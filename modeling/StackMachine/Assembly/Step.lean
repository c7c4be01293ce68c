import StackMachine.Assembly.Basic

/-!
# Steps of assembling

The steps by which an assembly grows, as data: a sequence of steps can be performed, and each
answers with what it made.
-/

namespace StackMachine

/-- A step of assembling. -/
inductive AssemblyStep where
  | emit (op : Opcode)
  | emitWith (op : Opcode) (imm : Immediate)
  | newLabel (name : Option String)
  | placeLabel (label : Label)
  | referTo (label : Label)
  | emitJump (op : Opcode) (label : Label)
  | enterScope
  | exitScope
  | declare (name : String) (isMutable : Bool)
  | resolve (name : String)
deriving DecidableEq

/-- What a step answers with. -/
inductive AssemblyReply where
  | done
  | label (l : Label)
  | index (n : Nat)
  | binding (b : Binding)
deriving DecidableEq

namespace Assembly

/-- One step is performed. -/
def perform (a : Assembly) : AssemblyStep → Except AssemblyError (AssemblyReply × Assembly)
  | .emit op => (a.emit op).map fun b => (.done, b)
  | .emitWith op imm => (a.emitWith op imm).map fun b => (.done, b)
  | .newLabel name => .ok (.label (a.newLabel name).1, (a.newLabel name).2)
  | .placeLabel l => (a.placeLabel l).map fun b => (.done, b)
  | .referTo l => (a.referTo l).map fun b => (.done, b)
  | .emitJump op l => (a.emitJump op l).map fun b => (.done, b)
  | .enterScope => a.enterScope.map fun b => (.done, b)
  | .exitScope => a.exitScope.map fun b => (.done, b)
  | .declare name isMutable => (a.declare name isMutable).map fun r => (.index r.1, r.2)
  | .resolve name => (a.resolve name).map fun b => (.binding b, a)

/-- The assembly after a step; one that fails leaves it as it was. -/
def after (a : Assembly) (step : AssemblyStep) : Assembly :=
  match a.perform step with
  | .ok (_, b) => b
  | .error _ => a

/-- The assembly after a sequence of steps. -/
def afterAll (a : Assembly) (steps : List AssemblyStep) : Assembly := steps.foldl after a

end Assembly
end StackMachine
