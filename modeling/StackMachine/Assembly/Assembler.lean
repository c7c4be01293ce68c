import StackMachine.Assembly.Step

/-!
# An assembler that is changed in place

Code is assembled by calls that change one state after another. A call that fails does not go back
to the state before it: what it had changed by then stays changed. The visible variables are one
sequence, and for each open scope it is kept where the variables of the scope begin.
-/

namespace StackMachine

/-- The state of an assembler. -/
structure Assembler where
  code : Array UInt8 := #[]
  strings : Array PoolEntry := #[]
  labels : Array LabelSlot := #[]
  /-- The visible variables, oldest first. -/
  visible : Array Variable := #[]
  /-- How many variables were visible when each open scope was entered, innermost first. -/
  bases : List Nat := []
deriving DecidableEq

/-- A call of an assembler, which may fail; a failure keeps the state as it then is. -/
abbrev Assembling := EStateM AssemblyError Assembler

namespace Assembler

/-- The offset of the next instruction. -/
def position (s : Assembler) : Nat := s.code.size

/-- Where the variables of the innermost scope begin. -/
def base (s : Assembler) : Nat := s.bases.headD 0

/-! ## Emitting -/

/-- Bytes are put at the end of the code. -/
def write (bytes : List UInt8) : Assembling Unit :=
  modify fun s => { s with code := s.code ++ bytes }

/-- An instruction without an operand. -/
def add (op : Opcode) : Assembling Unit := do
  if op.shape = .none then write [op.code]
  else throw (.invalidOperand op (.operand .none))

/-- A text is put at the end of the pool. -/
def intern (text : String) : Assembling UInt32 := fun s =>
  if s.strings.size < UInt32.size then
    .ok (UInt32.ofNat s.strings.size) { s with strings := s.strings.push (.ofText text) }
  else
    .error .poolFull s

/-- The operand that an immediate becomes. A text becomes its index in the pool. -/
def operand : Immediate → Assembling Argument
  | .u8 n => pure (.u8 n)
  | .u16 n => pure (.u16 n)
  | .u32 n => pure (.u32 n)
  | .u64 n => pure (.u64 n)
  | .f64 x => pure (.f64 x)
  | .text text => do pure (.string (← intern text))

/-- An instruction with an operand. The opcode is written before the operand is made. -/
def addWith (op : Opcode) (imm : Immediate) : Assembling Unit := do
  if imm.shape ≠ op.shape then throw (.invalidOperand op (.operand imm.shape))
  else
    write [op.code]
    let arg ← operand imm
    write arg.bytes

/-! ## Labels -/

/-- A new label, perhaps with a name for error reports. -/
def createLabel (name : Option String) : Assembling Label := fun s =>
  .ok ⟨s.labels.size⟩ { s with labels := s.labels.push { name } }

/-- What is known of a label is changed. -/
def updateSlot (label : Label) (f : LabelSlot → LabelSlot) : Assembling Unit := fun s =>
  if label.index < s.labels.size then
    .ok () { s with labels := s.labels.modify label.index f }
  else
    .error (.foreignLabel label) s

/-- A label is placed at the current position; placing it again moves it. -/
def setLabel (label : Label) : Assembling Unit := do
  let address := (← get).position
  updateSlot label fun slot => { slot with address := some address }

/-- The current position is noted as a site of a label, and eight bytes are reserved there. -/
def addLabel (label : Label) : Assembling Unit := do
  let site := (← get).position
  updateSlot label fun slot => { slot with sites := site :: slot.sites }
  write Assembly.placeholder

/-- An instruction whose operand is the address of a label. The label is looked up before the opcode
is written, and once more for its site. -/
def addJump (op : Opcode) (label : Label) : Assembling Unit := do
  if op.shape ≠ .u64 then throw (.invalidOperand op .label)
  else
    updateSlot label id
    write [op.code]
    addLabel label

/-! ## Scopes and variables -/

/-- A scope is opened, here and when the program runs. -/
def enterScope : Assembling Unit := do
  modify fun s => { s with bases := s.visible.size :: s.bases }
  add .enterScope

/-- The innermost scope is closed, here and when the program runs. -/
def exitScope : Assembling Unit := do
  match (← get).bases with
  | [] => throw .scopeUnderflow
  | base :: bases =>
    modify fun s => { s with visible := s.visible.shrink base, bases }
    add .leaveScope

/-- A variable is declared in the innermost scope and gets its index. No code is emitted. -/
def declare (name : String) (isMutable : Bool) : Assembling Nat := fun s =>
  if (s.visible.extract s.base s.visible.size).any fun v => v.name == name then
    .error (.duplicateName name) s
  else
    .ok s.visible.size { s with visible := s.visible.push ⟨name, isMutable⟩ }

/-- What a name stands for here: its newest visible declaration. -/
def resolve (name : String) : Assembling Binding := fun s =>
  match s.visible.toList.zipIdx.reverse.find? fun v => v.1.name == name with
  | some (v, index) => .ok ⟨index, v.isMutable⟩ s
  | none => .error (.unknownName name) s

/-! ## Calls -/

/-- One step is performed as a call. -/
def call : AssemblyStep → Assembling AssemblyReply
  | .emit op => do add op; pure .done
  | .emitWith op imm => do addWith op imm; pure .done
  | .newLabel name => do pure (.label (← createLabel name))
  | .placeLabel l => do setLabel l; pure .done
  | .referTo l => do addLabel l; pure .done
  | .emitJump op l => do addJump op l; pure .done
  | .enterScope => do enterScope; pure .done
  | .exitScope => do exitScope; pure .done
  | .declare name isMutable => do pure (.index (← declare name isMutable))
  | .resolve name => do pure (.binding (← resolve name))

/-- The answer of a call. -/
def answer (s : Assembler) (step : AssemblyStep) : Except AssemblyError AssemblyReply :=
  match call step s with
  | .ok reply _ => .ok reply
  | .error e _ => .error e

/-- The state after a call, which is kept if the call fails. -/
def after (s : Assembler) (step : AssemblyStep) : Assembler :=
  match call step s with
  | .ok _ t => t
  | .error _ t => t

section

variable {s t : Assembler} {step : AssemblyStep} {reply : AssemblyReply} {e : AssemblyError}

theorem answer_of_ok (h : call step s = .ok reply t) : s.answer step = .ok reply := by
  rw [answer, h]

theorem answer_of_error (h : call step s = .error e t) : s.answer step = .error e := by
  rw [answer, h]

theorem after_of_ok (h : call step s = .ok reply t) : s.after step = t := by
  rw [after, h]

theorem after_of_error (h : call step s = .error e t) : s.after step = t := by
  rw [after, h]

end

/-- The state after a sequence of calls. -/
def afterAll (s : Assembler) (steps : List AssemblyStep) : Assembler := steps.foldl after s

theorem afterAll_cons (s : Assembler) (step : AssemblyStep) (steps : List AssemblyStep) :
    s.afterAll (step :: steps) = (s.after step).afterAll steps := rfl

theorem afterAll_append (s : Assembler) (steps later : List AssemblyStep) :
    s.afterAll (steps ++ later) = (s.afterAll steps).afterAll later := List.foldl_append

/-- The finished program: every address of a label is written at its sites. -/
def finish (s : Assembler) : Except AssemblyError Program := do
  let code ← Assembly.patchAll s.code 0 s.labels.toList
  pure { code, strings := s.strings }

/-- What is seen of a call: its answer, and the position after it. -/
structure Call where
  step : AssemblyStep
  answer : Except AssemblyError AssemblyReply
  position : Nat

/-- What is seen of a sequence of calls. -/
def transcript (s : Assembler) : List AssemblyStep → List Call
  | [] => []
  | step :: steps =>
    ⟨step, s.answer step, (s.after step).position⟩ :: (s.after step).transcript steps

theorem transcript_append (s : Assembler) (steps later : List AssemblyStep) :
    s.transcript (steps ++ later) = s.transcript steps ++ (s.afterAll steps).transcript later := by
  induction steps generalizing s with
  | nil => rfl
  | cons step steps ih => exact congrArg _ (ih (s.after step))

end Assembler
end StackMachine
