import StackMachine.Assembly.Basic
import StackMachine.Proofs.Variables.Environment
import StackMachine.Value.Heap

/-!
# Actions on variables

What a program does with variables, action by action: scopes are entered and left, variables are
defined, assigned and read. An action is emitted through the assembler, which gives it an index
(`Action.emit`), and it means something without any index, on an environment (`Action.perform?`).
-/

namespace StackMachine

/-! ## The actions -/

/-- Where a value that is pushed comes from: it is new, of any kind, or one that is there already.
-/
inductive Source where
  | nil
  | bool (b : Bool)
  | int (n : UInt8)
  | number (x : Number)
  | text (s : String)
  | function (arity : UInt16) (address : UInt64)
  /-- A new empty array. -/
  | array
  /-- A new empty table, made of pairs or of triples with flags. -/
  | table (flagged : Bool)
  /-- The top of the stack once more. -/
  | top
  /-- The value of a variable. -/
  | current (name : String)

/-- What is done with variables. -/
inductive Action where
  | enterScope
  | exitScope
  /-- A value is pushed and becomes a new variable. -/
  | define (name : String) (isMutable : Bool) (source : Source)
  /-- A value is pushed and moved into the variable that a name stands for. -/
  | assign (name : String) (source : Source)
  /-- The variable that a name stands for is pushed. -/
  | read (name : String)

/-! ## Emitting -/

/-- The instructions that push a value: one, but for a function, whose arity is pushed first. -/
def Source.emit (a : Assembly) : Source → Except AssemblyError Assembly
  | nil => a.emit .pushNil
  | bool b => a.emit (if b then .pushTrue else .pushFalse)
  | int n => a.emitWith .pushInt (.u8 n)
  | number x => a.emitWith .pushNumber (.f64 x)
  | text s => a.emitWith .pushString (.text s)
  | function arity address => do
    let a ← a.emitWith .pushNumber (.f64 (.ofNat arity.toNat))
    a.emitWith .pushFunction (.u64 address)
  | array => a.emitWith .makeArray (.u32 0)
  | table flagged => a.emitWith (if flagged then .makeFlaggedTable else .makeTable) (.u32 0)
  | top => a.emit .dup
  | current name => do
    let b ← a.resolve name
    a.emitWith .load (.u64 (UInt64.ofNat b.index))

/-- The instructions of an action, with the index of its variable as operand. -/
def Action.emit (a : Assembly) : Action → Except AssemblyError Assembly
  | enterScope => a.enterScope
  | exitScope => a.exitScope
  | define name isMutable source => do
    let a ← source.emit a
    let (_, a) ← a.declare name isMutable
    a.emit .define
  | assign name source => do
    let a ← source.emit a
    let b ← a.resolve name
    a.emitWith .store (.u64 (UInt64.ofNat b.index))
  | read name => do
    let b ← a.resolve name
    a.emitWith .load (.u64 (UInt64.ofNat b.index))

/-- The instructions of actions in order. -/
def Action.emitAll (a : Assembly) (actions : List Action) : Except AssemblyError Assembly :=
  actions.foldlM Action.emit a

/-! ## Meaning -/

/-- What actions act on: the environment, the containers and strings that were made, and the values
that were read, oldest first. -/
structure VariableState where
  environment : Environment := .empty
  heap : Heap := {}
  reads : List Value := []

/-- The value of a source, and the heap in which it was made. The stack is a nil below the values
that were read. -/
def Source.value? (s : VariableState) : Source → Option (Value × Heap)
  | nil => some (.nil, s.heap)
  | bool b => some (.bool b, s.heap)
  | int n => some (.number (.ofNat n.toNat), s.heap)
  | number x => some (.number x, s.heap)
  | text t => some (s.heap.newHashedString t (hashText t))
  | function arity address => some (.function ⟨address, arity⟩, s.heap)
  | array => some (s.heap.newArray #[])
  | table _ => some (s.heap.newTable {})
  | top => some (s.reads.getLast?.getD .nil, s.heap)
  | current name => (s.environment.lookup name).map fun v => (v, s.heap)

/-- What an action comes to. Reading gives what was last stored in the newest variable of the
name. -/
def Action.perform? (s : VariableState) : Action → Option VariableState
  | enterScope => some { s with environment := .scope s.environment }
  | exitScope => s.environment.leave?.map fun environment => { s with environment }
  | define name isMutable source => do
    let (v, heap) ← source.value? s
    some { s with environment := .declared ⟨name, isMutable⟩ v s.environment, heap }
  | assign name source => do
    let (v, heap) ← source.value? s
    let environment ← s.environment.assign? name v
    some { s with environment, heap }
  | read name => (s.environment.lookup name).map fun v => { s with reads := s.reads ++ [v] }

/-- What actions come to in order. -/
def Action.performAll? (s : VariableState) (actions : List Action) : Option VariableState :=
  actions.foldlM Action.perform? s

end StackMachine
