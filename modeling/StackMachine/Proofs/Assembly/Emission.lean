import StackMachine.Assembly.Step
import StackMachine.Proofs.Prelude

/-!
# What steps emit

The code under construction as a sequence of emissions, one for each step that adds to it. A step
that fails emits nothing. For each operation of the assembler there is one lemma that says what it
changes when it succeeds.
-/

namespace StackMachine

/-! ## Emissions -/

/-- What a step adds to the code. -/
inductive Emission where
  /-- An instruction whose operand is known. -/
  | operation (op : Opcode) (argument : Argument)
  /-- An instruction whose operand is the address of a label. -/
  | jump (op : Opcode) (label : Label)
  /-- The address of a label that is no part of an instruction. -/
  | reference (label : Label)
deriving DecidableEq

namespace Emission

/-- The bytes of an emission in which labels are spelled as given. -/
def bytes (spell : Label → List UInt8) : Emission → List UInt8
  | operation op argument => op.code :: argument.bytes
  | jump op label => op.code :: spell label
  | reference label => spell label

/-- How many bytes an emission has, however labels are spelled. -/
def length : Emission → Nat
  | operation _ argument => 1 + argument.shape.width
  | jump _ _ => 9
  | reference _ => 8

/-- The label whose address is part of an emission. -/
def label? : Emission → Option Label
  | operation _ _ => none
  | jump _ label => some label
  | reference label => some label

/-- How far into an emission the address of its label stands. -/
def siteIn : Emission → Nat
  | reference _ => 0
  | _ => 1

/-- Whether the operand has the shape that the opcode asks for. -/
def WellShaped : Emission → Prop
  | operation op argument => argument.shape = op.shape
  | jump op _ => op.shape = .u64
  | reference _ => True

theorem length_bytes {spell : Label → List UInt8} (hspell : ∀ l, (spell l).length = 8)
    (e : Emission) : (e.bytes spell).length = e.length := by
  cases e <;> simp [bytes, length, hspell, Nat.add_comm]

/-- How many bytes a sequence of emissions has. -/
def lengthAll (es : List Emission) : Nat := (es.map length).sum

theorem length_flatMap_bytes {spell : Label → List UInt8} (hspell : ∀ l, (spell l).length = 8)
    (es : List Emission) : (es.flatMap (bytes spell)).length = lengthAll es := by
  simp [lengthAll, List.length_flatMap, length_bytes hspell]

/-- Where the address of a label is to be written in a sequence of emissions that begins at an
offset, first site first. -/
def sitesFrom (l : Label) (offset : Nat) : List Emission → List Nat
  | [] => []
  | e :: es =>
    let later := sitesFrom l (offset + e.length) es
    if e.label? = some l then (offset + e.siteIn) :: later else later

theorem sitesFrom_append (l : Label) (offset : Nat) (es fs : List Emission) :
    sitesFrom l offset (es ++ fs) =
      sitesFrom l offset es ++ sitesFrom l (offset + lengthAll es) fs := by
  induction es generalizing offset with
  | nil => rfl
  | cons e es ih =>
    have hsum : offset + lengthAll (e :: es) = offset + e.length + lengthAll es := by
      simp [lengthAll, Nat.add_assoc]
    rw [List.cons_append, sitesFrom, sitesFrom, ih, hsum]
    split <;> rfl

theorem sitesFrom_eq_nil {l : Label} {es : List Emission}
    (h : ∀ e ∈ es, e.label? ≠ some l) (offset : Nat) : sitesFrom l offset es = [] := by
  induction es generalizing offset with
  | nil => rfl
  | cons e es ih =>
    rw [sitesFrom, if_neg (h e (by simp))]
    exact ih (fun x hx => h x (by simp [hx])) _

end Emission

/-! ## What a step emits -/

/-- The operand that an immediate becomes: a text becomes its index in a pool of the given size. -/
def Immediate.argument (poolSize : Nat) : Immediate → Argument
  | u8 n => .u8 n
  | u16 n => .u16 n
  | u32 n => .u32 n
  | u64 n => .u64 n
  | f64 x => .f64 x
  | text _ => .string (UInt32.ofNat poolSize)

/-- What an immediate adds to the pool. -/
def Immediate.pooled : Immediate → Array PoolEntry
  | text s => #[.ofText s]
  | _ => #[]

@[simp] theorem Immediate.shape_argument (poolSize : Nat) (imm : Immediate) :
    (imm.argument poolSize).shape = imm.shape := by
  cases imm <;> rfl

/-- What a step adds to the code of an assembly when it succeeds. -/
def AssemblyStep.emission? (a : Assembly) : AssemblyStep → Option Emission
  | .emit op => some (.operation op .none)
  | .emitWith op imm => some (.operation op (imm.argument a.strings.size))
  | .referTo label => some (.reference label)
  | .emitJump op label => some (.jump op label)
  | .enterScope => some (.operation .enterScope .none)
  | .exitScope => some (.operation .leaveScope .none)
  | .newLabel _ | .placeLabel _ | .declare _ _ | .resolve _ => none

namespace Assembly

/-- What a step adds to the code; one that fails adds nothing. -/
def emitted (a : Assembly) (step : AssemblyStep) : List Emission :=
  match a.perform step with
  | .ok _ => (step.emission? a).toList
  | .error _ => []

/-- What a sequence of steps adds to the code, in order. -/
def emittedAll (a : Assembly) : List AssemblyStep → List Emission
  | [] => []
  | step :: steps => a.emitted step ++ (a.after step).emittedAll steps

/-- Every emission is that of a step that succeeded. -/
theorem exists_of_mem_emittedAll {a : Assembly} {steps : List AssemblyStep} {e : Emission}
    (he : e ∈ a.emittedAll steps) :
    ∃ before step rest reply b, steps = before ++ step :: rest ∧
      (a.afterAll before).perform step = .ok (reply, b) ∧
      step.emission? (a.afterAll before) = some e := by
  induction steps generalizing a with
  | nil => simp [emittedAll] at he
  | cons step steps ih =>
    rw [emittedAll, List.mem_append] at he
    rcases he with he | he
    · cases hstep : a.perform step with
      | error error => simp [emitted, hstep] at he
      | ok r =>
        obtain ⟨reply, b⟩ := r
        refine ⟨[], step, steps, reply, b, rfl, hstep, ?_⟩
        simpa [emitted, hstep, afterAll] using he
    · obtain ⟨before, later, rest, reply, b, rfl, hlater, hemission⟩ := ih he
      exact ⟨step :: before, later, rest, reply, b, rfl, hlater, hemission⟩

/-! ## What each operation changes -/

variable {a b : Assembly} {op : Opcode} {label : Label}

@[simp] theorem toList_code_append (a : Assembly) (bytes : List UInt8) :
    (a.append bytes).code.toList = a.code.toList ++ bytes := by
  simp [append]

@[simp] theorem position_append (a : Assembly) (bytes : List UInt8) :
    (a.append bytes).position = a.position + bytes.length := by
  rw [position, ← Array.length_toList, toList_code_append, List.length_append,
    Array.length_toList, position]

theorem emit_ok (h : a.emit op = .ok b) : op.shape = .none ∧ b = a.append [op.code] := by
  unfold emit at h
  split at h
  · next hshape => exact ⟨hshape, (Except.ok.inj h).symm⟩
  · contradiction

/-- An operand of the right shape is emitted, unless it is a text and the pool is full. -/
theorem emitWith_eq {imm : Immediate} (hshape : imm.shape = op.shape) :
    a.emitWith op imm =
      if imm.shape = .string ∧ UInt32.size ≤ a.strings.size then .error .poolFull
      else .ok { a.append (op.code :: (imm.argument a.strings.size).bytes) with
        strings := a.strings ++ imm.pooled } := by
  simp only [emitWith, if_neg (not_not_intro hshape)]
  cases imm with
  | text s =>
    dsimp only
    by_cases hroom : a.strings.size < UInt32.size
    · rw [if_pos hroom, if_neg fun hfull => Nat.not_le.2 hroom hfull.2]
      rfl
    · rw [if_neg hroom, if_pos ⟨rfl, Nat.not_lt.1 hroom⟩]
  | _ => rfl

theorem emitWith_ok {imm : Immediate} (h : a.emitWith op imm = .ok b) :
    imm.shape = op.shape ∧ (imm.shape = .string → a.strings.size < 2 ^ 32) ∧
      b = { a.append (op.code :: (imm.argument a.strings.size).bytes) with
        strings := a.strings ++ imm.pooled } := by
  by_cases hshape : imm.shape = op.shape
  · rw [emitWith_eq hshape] at h
    split at h
    · contradiction
    · next hroom =>
      refine ⟨hshape, fun htext => ?_, (Except.ok.inj h).symm⟩
      exact Nat.not_le.1 fun hfull => hroom ⟨htext, hfull⟩
  · simp only [emitWith, if_pos hshape] at h
    contradiction

/-- The index that a text gets is the size of the pool before it, as a number too. -/
theorem toNat_index_of_emitWith {s : String} (h : a.emitWith op (.text s) = .ok b) :
    (UInt32.ofNat a.strings.size).toNat = a.strings.size := by
  obtain ⟨-, hroom, -⟩ := emitWith_ok h
  rw [UInt32.toNat_ofNat']
  exact Nat.mod_eq_of_lt (hroom rfl)

theorem placeLabel_ok (h : a.placeLabel label = .ok b) :
    b = { a with labels := a.labels.modify label.index fun slot =>
      { slot with address := some a.position } } := by
  unfold placeLabel at h
  split at h
  · exact (Except.ok.inj h).symm
  · contradiction

theorem referTo_ok (h : a.referTo label = .ok b) :
    label.index < a.labels.size ∧
      b = { a.append placeholder with
        labels := a.labels.modify label.index fun slot =>
          { slot with sites := a.position :: slot.sites } } := by
  unfold referTo at h
  split at h
  · next hknown => exact ⟨by simpa [knows] using hknown, (Except.ok.inj h).symm⟩
  · contradiction

theorem emitJump_ok (h : a.emitJump op label = .ok b) :
    op.shape = .u64 ∧ (a.append [op.code]).referTo label = .ok b := by
  unfold emitJump at h
  split at h
  · contradiction
  · next hshape =>
    split at h
    · exact ⟨Decidable.not_not.1 hshape, h⟩
    · contradiction

theorem enterScope_ok (h : a.enterScope = .ok b) :
    b = { a.append [Opcode.enterScope.code] with scopes := a.scopes.enter } :=
  (emit_ok h).2

theorem exitScope_ok (h : a.exitScope = .ok b) :
    ∃ scopes, a.scopes.exit? = some scopes ∧
      b = { a.append [Opcode.leaveScope.code] with scopes } := by
  unfold exitScope at h
  split at h
  · next scopes hexit => exact ⟨scopes, hexit, (emit_ok h).2⟩
  · contradiction

theorem declare_ok {name : String} {isMutable : Bool} {index : Nat}
    (h : a.declare name isMutable = .ok (index, b)) :
    a.scopes.declares name = false ∧ index = a.scopes.visible.length ∧
      b = { a with scopes := a.scopes.push ⟨name, isMutable⟩ } := by
  unfold declare at h
  split at h
  · contradiction
  · next hfresh =>
    obtain ⟨hindex, hb⟩ := Prod.mk.inj (Except.ok.inj h)
    exact ⟨by simpa using hfresh, hindex.symm, hb.symm⟩

end Assembly
end StackMachine
