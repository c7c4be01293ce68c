import StackMachine.Machine.Basic
import StackMachine.Number.Arithmetic

/-!
# Executing an instruction

What each opcode does to a machine. An instruction that fails has at most taken its operands off the
stack; variables, scopes, calls and the containers that were there are as before.
-/

namespace StackMachine

/-- Where the machine goes after an instruction. -/
inductive Flow where
  | next
  | jump (target : Nat)
  | halt
deriving DecidableEq, Repr

/-- A computation on a machine that may fail; a failure keeps the machine as it then is. -/
abbrev Exec := EStateM Fault Machine

/-! ## Operands in the code -/

/-- The integer of an operand. -/
def Argument.toNat (a : Argument) : Nat := a.toNat?.getD 0

/-- The number of an operand. -/
def Argument.toNumber : Argument → Number
  | f64 x => x
  | _ => .zero

namespace Machine

/-! ## The operand stack -/

/-- A value is put on the stack if the limit allows. -/
def push (v : Value) : Exec Unit := fun m =>
  if m.config.maxStack ≤ m.stack.size then .error (.stackOverflow m.config.maxStack) m
  else .ok () { m with stack := m.stack.push v }

/-- The top value is taken off the stack. -/
def pop : Exec Value := fun m =>
  match m.stack.back? with
  | none => .error .stackUnderflow m
  | some v =>
    .ok v { m with stack := m.stack.pop, pristine := m.pristine && m.stack.size != 1 }

/-- The top values are taken off the stack, given bottom first. -/
def take (n : Nat) : Exec (Array Value) := fun m =>
  if m.stack.size < n then .error .stackUnderflow m
  else
    .ok (m.stack.extract (m.stack.size - n) m.stack.size)
      { m with stack := m.stack.shrink (m.stack.size - n)
               pristine := m.pristine && m.stack.size != n }

/-- The top value, left where it is. -/
def top : Exec Value := fun m =>
  match m.stack.back? with
  | none => .error .stackUnderflow m
  | some v => .ok v m

/-- A new value is made in the heap. -/
def make (f : Heap → Value × Heap) : Exec Value := fun m =>
  let made := f m.heap
  .ok made.1 { m with heap := made.2 }

/-- The outcome of an access to the heap. -/
def liftAccess {α : Type} (result : Except AccessError α) : Exec α := fun m =>
  match result with
  | .ok a => .ok a m
  | .error e => .error (.access e) m

/-! ## Pushing -/

/-- A string of the pool is pushed. -/
def pushString (index : Nat) : Exec Unit := do
  match (← get).program.strings[index]? with
  | none => throw (.missingString index)
  | some e => push (← make (·.newHashedString e.text e.hash))

/-- The function of the arity on the stack at an address is pushed. -/
def pushFunction (address : Nat) : Exec Unit := do
  let arity ← pop
  match (arity.asNumber?).bind Number.toInt? with
  | some n =>
    if 0 ≤ n ∧ n ≤ 65535 then
      push (.function ⟨UInt64.ofNat address, UInt16.ofNat n.toNat⟩)
    else
      throw (.typeMismatch .pushFunction ((← get).heap.render arity))
  | none => throw (.typeMismatch .pushFunction ((← get).heap.render arity))

/-! ## Making tables -/

/-- The flags that a value stands for: an integer from zero to three. -/
def flagsOf? (v : Value) : Option Flags := do
  let n ← (← v.asNumber?).toInt?
  if 0 ≤ n then Flags.ofBits? n.toNat else none

/-- The table with pairs of key and value set in order. -/
def setPairs (t : Table) : List Value → Except Fault Table
  | key :: value :: rest =>
    match key.toKey with
    | .ok k => setPairs (t.set k value .standard) rest
    | .error e => .error (.access e)
  | _ => .ok t

/-- The table with triples of key, flags and value set in order. -/
def setTriples (h : Heap) (t : Table) : List Value → Except Fault Table
  | key :: flags :: value :: rest =>
    match flagsOf? flags with
    | none => .error (.invalidFlags (h.render flags))
    | some f =>
      match key.toKey with
      | .ok k => setTriples h (t.set k value f) rest
      | .error e => .error (.access e)
  | _ => .ok t

/-- How many values a table of so many groups takes off the stack. -/
def tableNeed (n : Nat) (derived flagged : Bool) : Nat :=
  n * (if flagged then 3 else 2) + derived.toNat

/-- The table of the values that were taken off the stack, its prototype first. -/
def tableOf (h : Heap) (derived flagged : Bool) (items : List Value) : Except Fault Table :=
  let t : Table := if derived then { prototype := items.head? } else {}
  let groups := items.drop derived.toNat
  if flagged then setTriples h t groups else setPairs t groups

/-- A table of the top values is pushed. -/
def makeTable (n : Nat) (derived flagged : Bool) : Exec Unit := do
  let items ← take (tableNeed n derived flagged)
  match tableOf (← get).heap derived flagged items.toList with
  | .ok t => push (← make (·.newTable t))
  | .error e => throw e

/-! ## Variables and scopes -/

/-- The top value becomes a new variable. -/
def define : Exec Unit := do
  let v ← pop
  modify fun m => { m with slots := m.slots.push v }

/-- The items of the array on the stack become new variables. -/
def destructure (expected : Nat) : Exec Unit := do
  match ← pop with
  | .array id =>
    let items := (← get).heap.items id
    if items.size = expected then
      modify fun m => { m with slots := m.slots ++ items }
    else
      throw (.arityMismatch expected items.size)
  | v => throw (.typeMismatch .destructure v.tag.name)

/-- A variable is pushed. -/
def loadVariable (index : Nat) : Exec Unit := do
  let m ← get
  match m.slots[index]? with
  | some v => push v
  | none => throw (.variableOutOfRange index m.slots.size)

/-- The top value is moved into a variable. -/
def storeVariable (index : Nat) : Exec Unit := do
  let v ← pop
  let length := (← get).slots.size
  if index < length then
    modify fun m => { m with slots := m.slots.setIfInBounds index v }
  else
    throw (.variableOutOfRange index length)

/-- A scope is opened. -/
def enterScope : Exec Unit :=
  modify fun m => { m with marks := m.slots.size :: m.marks }

/-- The innermost scope is closed and its variables are dropped. -/
def leaveScope : Exec Unit := fun m =>
  match m.marks with
  | [] => .error .scopeUnderflow m
  | mark :: marks => .ok () { m with marks, slots := m.slots.shrink mark }

/-! ## Control -/

/-- An address is in the code or just after it. -/
def checkTarget (target : Nat) : Exec Unit := fun m =>
  if target ≤ m.program.code.size then .ok () m else .error (.invalidJump target) m

/-- The machine goes to an address. -/
def jump (target : Nat) : Exec Flow := do
  checkTarget target
  pure (.jump target)

/-- The machine goes to an address if the top value is taken for the given truth. -/
def jumpWhen (truth : Bool) (target : Nat) : Exec Flow := do
  checkTarget target
  let v ← pop
  let m ← get
  pure (if m.heap.truthy v = truth then .jump target else .next)

/-- The function below its arguments is called; it will return to the given address. -/
def call (count : Nat) (back : Nat) : Exec Flow := fun m =>
  if m.stack.size < count + 1 then .error .stackUnderflow m
  else
    let slot := m.stack.size - count - 1
    match m.stack.getD slot .nil with
    | .function f =>
      if f.arity.toNat ≠ count then .error (.arityMismatch f.arity.toNat count) m
      else if m.config.maxStack ≤ m.frames.size then
        .error (.stackOverflow m.config.maxStack) m
      else if m.program.code.size < f.address.toNat then
        .error (.invalidJump f.address.toNat) m
      else
        .ok (.jump f.address.toNat)
          { m with stack := m.stack.eraseIdxIfInBounds slot
                   pristine := m.pristine && m.stack.size != 1
                   frames := m.frames.push back }
    | v => .error (.typeMismatch .call v.tag.name) m

/-- The machine returns to the caller, or halts when no call is open. -/
def ret : Exec Flow := fun m =>
  match m.frames.back? with
  | some address => .ok (.jump address) { m with frames := m.frames.pop }
  | none => .ok .halt m

/-! ## Operators -/

/-- A number is negated. -/
def negate : Exec Unit := do
  match ← pop with
  | .number x => push (.number x.neg)
  | v => throw (.typeMismatch .neg v.tag.name)

/-- What an operator makes of two numbers. -/
def onNumbers? (op : Opcode) (x y : Number) : Option Scalar :=
  match op with
  | .add => some (.number (x.add y))
  | .sub => some (.number (x.sub y))
  | .mul => some (.number (x.mul y))
  | .div => some (.number (x.div y))
  | .mod => some (.number (x.rem y))
  | .lt => some (.bool (x.lt y))
  | .le => some (.bool (x.le y))
  | .gt => some (.bool (y.lt x))
  | .ge => some (.bool (y.le x))
  | _ => none

/-- What a comparison makes of two texts, which are ordered by their code points. -/
def onTexts? (op : Opcode) (s t : String) : Option Bool :=
  match op with
  | .lt => some (decide (s < t))
  | .le => some (!decide (t < s))
  | .gt => some (decide (t < s))
  | .ge => some (!decide (s < t))
  | _ => none

/-- What an operator makes of two values. Any two can be compared for equality; the others take two
numbers, or two strings that are joined or ordered. -/
def binary (op : Opcode) (a b : Value) : Exec Value := do
  let h := (← get).heap
  let mismatch : Fault := .typeMismatch op (a.tag.name ++ " and " ++ b.tag.name)
  match op, a, b with
  | .eq, a, b => pure (.bool (h.equals a b))
  | .ne, a, b => pure (.bool !(h.equals a b))
  | op, .number x, .number y =>
    match onNumbers? op x y with
    | some s => pure (.scalar s)
    | none => throw mismatch
  | .add, .string s, .string t => make (·.newString (s.text ++ t.text))
  | op, .string s, .string t =>
    match onTexts? op s.text t.text with
    | some b => pure (.bool b)
    | none => throw mismatch
  | _, _, _ => throw mismatch

/-- An operator is applied to the top two values. -/
def operator (op : Opcode) : Exec Unit := do
  let b ← pop
  let a ← pop
  push (← binary op a b)

/-- The top value is replaced. -/
def replace (f : Machine → Value → Value) : Exec Unit := do
  let v ← pop
  push (f (← get) v)

/-! ## Indexed access -/

/-- A value is read from a container. -/
def getIndexed : Exec Unit := do
  let key ← pop
  let container ← pop
  push (← liftAccess ((← get).heap.get container key))

/-- The heap is replaced by the one that an access leaves. -/
def updateHeap (f : Heap → Except AccessError Heap) : Exec Unit := fun m =>
  match f m.heap with
  | .ok heap => .ok () { m with heap }
  | .error e => .error (.access e) m

/-- A value is written into a container. -/
def setIndexed : Exec Unit := do
  let value ← pop
  let key ← pop
  let container ← pop
  updateHeap (·.set container key value)

/-- A key is deleted from a container. -/
def deleteIndexed : Exec Unit := do
  let key ← pop
  let container ← pop
  updateHeap fun h => (h.delete container key).map Prod.snd

/-! ## Reflection -/

/-- The top value is replaced by its text. -/
def inspect : Exec Unit := do
  let v ← pop
  let text := (← get).heap.render v
  push (← make (·.newString text))

/-! ## Instructions -/

/-- What an instruction does that leads on to the next one. -/
def operate (op : Opcode) (a : Argument) : Exec Unit :=
  match op with
  | .pushNil => push .nil
  | .pushTrue => push (.bool true)
  | .pushFalse => push (.bool false)
  | .pushInt => push (.number (.ofNat a.toNat))
  | .pushNumber => push (.number a.toNumber)
  | .pushString => pushString a.toNat
  | .makeArray => do
    let items ← take a.toNat
    push (← make (·.newArray items))
  | .makeTable => makeTable a.toNat false false
  | .makeFlaggedTable => makeTable a.toNat false true
  | .makeDerivedTable => makeTable a.toNat true false
  | .makeDerivedFlaggedTable => makeTable a.toNat true true
  | .pushFunction => pushFunction a.toNat
  | .pop => do let _ ← pop
  | .dup => do push (← top)
  | .define => define
  | .destructure => destructure a.toNat
  | .load => loadVariable a.toNat
  | .store => storeVariable a.toNat
  | .enterScope => enterScope
  | .leaveScope => leaveScope
  | .neg => negate
  | .not => replace fun m v => .bool !(m.heap.truthy v)
  | .add | .sub | .mul | .div | .mod | .eq | .ne | .lt | .le | .gt | .ge => operator op
  | .get => getIndexed
  | .set => setIndexed
  | .delete => deleteIndexed
  | .inspect => inspect
  | .isNil => replace fun _ v => .bool v.isNil
  | .identity => replace fun m v => m.config.addresses.shown v
  | .jump | .jumpIf | .jumpUnless | .call | .ret => pure ()

/-- What an instruction does, and where the machine goes next. -/
def execute (i : Instruction) : Exec Flow :=
  match i.opcode with
  | .jump => jump i.argument.toNat
  | .jumpIf => jumpWhen true i.argument.toNat
  | .jumpUnless => jumpWhen false i.argument.toNat
  | .call => call i.argument.toNat i.next
  | .ret => ret
  | op => do
    operate op i.argument
    pure .next

end Machine
end StackMachine
