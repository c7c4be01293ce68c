import StackMachine.Machine.Execute
import StackMachine.Proofs.Assembly.Finish
import StackMachine.Proofs.Assembly.Pool
import StackMachine.Proofs.Instruction.Stream

/-!
# Programs that take addresses from labels alone

Every address that is given to a label is where an instruction begins or where the code ends, and
labels keep no other kind of address. So a program whose code addresses all come from labels is
sealed (`sealed_of_byLabel`): its stream has no error, its jumps and functions name landings, and
its strings are in the pool.
-/

namespace StackMachine

/-! ## What is asked of the steps and what the program offers -/

/-- Whether the operand is an address of the code. -/
def Opcode.takesAddress : Opcode → Bool
  | .jump | .jumpIf | .jumpUnless | .pushFunction => true
  | _ => false

/-- Whether a step takes code addresses from labels alone, as operands of whole instructions. -/
def AssemblyStep.byLabel : AssemblyStep → Bool
  | .referTo _ => false
  | .emitWith op _ => !op.takesAddress
  | _ => true

/-- A program from whose code control does not get out. -/
structure Program.Sealed (p : Program) : Prop where
  decodes : p.Decodes
  targets : ∀ i, .ok i ∈ instructions p.code → i.opcode.takesAddress →
    p.Landing i.argument.toNat
  strings : ∀ i, .ok i ∈ instructions p.code → i.opcode = .pushString →
    i.argument.toNat < p.strings.size

namespace Assembly

open Emission (lengthAll)

variable {a : Assembly} {es : List Emission} {p : Program}

/-! ## Where labels stand -/

theorem LaidOut.size_finish (h : a.LaidOut es) (hp : a.finish = .ok p) :
    p.code.size = lengthAll es := by
  rw [← Array.length_toList, (h.finish hp).2,
    Emission.length_flatMap_bytes fun l => Bytes.length_littleEndian 8 _]

/-- **The end of every part of the emissions is a landing** of the finished program. -/
theorem LaidOut.landing_of_prefix (h : a.LaidOut es) (hwhole : ∀ e ∈ es, e.Whole)
    (hp : a.finish = .ok p) {before : List Emission} (hbefore : before <+: es) :
    p.Landing (lengthAll before) := by
  obtain ⟨rest, rfl⟩ := hbefore
  -- Either the code ends after this part or its next emission begins there.
  cases rest with
  | nil =>
    left
    rw [h.size_finish hp, List.append_nil]
  | cons e rest =>
    right
    obtain ⟨x, hx, -⟩ := Emission.exists_operation (hwhole e (by simp)) (h.shaped e (by simp))
      a.addressOf
    have hlength : ((before.filterMap (Emission.operation? a.addressOf)).map
        fun x => x.1.size).sum = lengthAll before :=
      (Emission.operations_spec (fun f hf => hwhole f (by simp [hf]))
        (fun f hf => h.shaped f (by simp [hf])) a.addressOf).2.1
    refine ⟨⟨lengthAll before, x.1, x.2⟩, ?_, rfl⟩
    rw [h.instructions_finish hwhole hp, List.mem_map]
    refine ⟨_, ?_, rfl⟩
    rw [mem_placed_iff, List.filterMap_append, List.filterMap_cons_some hx]
    refine ⟨_, _, rfl, ?_⟩
    rw [hlength, Nat.zero_add]

/-- The address of a label that was referred to is a landing. -/
theorem LaidOut.landing_addressOf (h : a.LaidOut es) (hwhole : ∀ e ∈ es, e.Whole)
    (hp : a.finish = .ok p) {l : Label} (hknown : l.index < a.labels.size) :
    p.Landing (a.addressOf l) := by
  obtain ⟨hplaced, -⟩ := h.finish hp
  have hmem : a.labels[l.index] ∈ a.labels := Array.getElem_mem hknown
  obtain ⟨x, hx⟩ := Option.isSome_iff_exists.1 (hplaced _ hmem)
  obtain ⟨before, hbefore, rfl⟩ := h.addresses _ hmem x hx
  have haddress : a.addressOf l = lengthAll before := by
    rw [addressOf, Array.getElem?_eq_getElem hknown, Option.bind_some, hx]
    rfl
  rw [haddress]
  exact h.landing_of_prefix hwhole hp hbefore

/-! ## Emissions of steps that use labels -/

variable {steps : List AssemblyStep}

theorem whole_of_byLabel (hsteps : ∀ s ∈ steps, s.byLabel) :
    ∀ e ∈ emittedAll {} steps, e.Whole :=
  whole_of_noReference fun _ hl => Bool.false_ne_true (hsteps _ hl)

/-- An operation that takes an address was emitted with a label. -/
theorem takesAddress_of_byLabel (hsteps : ∀ s ∈ steps, s.byLabel) {op : Opcode} {arg : Argument}
    (he : .operation op arg ∈ emittedAll {} steps) : op.takesAddress = false := by
  obtain ⟨before, step, rest, reply, b, rfl, hperform, hemission⟩ := exists_of_mem_emittedAll he
  have hstep := hsteps step (by simp)
  cases step with
  | emit op' =>
    obtain ⟨c, hemit, -⟩ := exists_of_map_ok hperform
    obtain ⟨hshape, -⟩ := emit_ok hemit
    simp only [AssemblyStep.emission?, Option.some.injEq, Emission.operation.injEq] at hemission
    obtain ⟨rfl, -⟩ := hemission
    -- An opcode with an address as its operand does not go without one.
    cases op' <;> first | rfl | simp [Opcode.shape] at hshape
  | emitWith op' imm =>
    simp only [AssemblyStep.emission?, Option.some.injEq, Emission.operation.injEq] at hemission
    obtain ⟨rfl, -⟩ := hemission
    simpa [AssemblyStep.byLabel] using hstep
  | enterScope | exitScope =>
    simp only [AssemblyStep.emission?, Option.some.injEq, Emission.operation.injEq] at hemission
    obtain ⟨rfl, -⟩ := hemission
    rfl
  | _ => simp [AssemblyStep.emission?] at hemission

/-- The index of a string that was emitted is in the pool, which only grows after it. -/
theorem index_lt_of_mem_emittedAll {arg : Argument}
    (he : .operation .pushString arg ∈ emittedAll {} steps) :
    arg.toNat < (afterAll {} steps).strings.size := by
  obtain ⟨before, step, rest, reply, b, rfl, hperform, hemission⟩ := exists_of_mem_emittedAll he
  cases step with
  | emit op =>
    obtain ⟨c, hemit, -⟩ := exists_of_map_ok hperform
    obtain ⟨hshape, -⟩ := emit_ok hemit
    simp only [AssemblyStep.emission?, Option.some.injEq, Emission.operation.injEq] at hemission
    obtain ⟨rfl, -⟩ := hemission
    contradiction
  | emitWith op imm =>
    have hafter : afterAll {} (before ++ .emitWith op imm :: rest) = b.afterAll rest := by
      rw [afterAll, List.foldl_append, List.foldl_cons]
      change afterAll ((afterAll {} before).after (.emitWith op imm)) rest = _
      rw [after, hperform]
    obtain ⟨added, hadded, -⟩ := exists_strings_afterAll b rest
    have hgrown := strings_perform hperform
    obtain ⟨c, hemit, -⟩ := exists_of_map_ok hperform
    obtain ⟨hshape, -, -⟩ := emitWith_ok hemit
    simp only [AssemblyStep.emission?, Option.some.injEq, Emission.operation.injEq] at hemission
    obtain ⟨rfl, rfl⟩ := hemission
    cases imm with
    | text s =>
      -- The index is the size of the pool before the step, which adds the text.
      rw [hafter, hadded, hgrown]
      simp only [Immediate.argument, Argument.toNat, Argument.toNat?, Option.getD_some,
        toNat_index_of_emitWith hemit, AssemblyStep.pooled, Immediate.pooled, Array.size_append]
      simp
      omega
    | _ => contradiction
  | _ => simp [AssemblyStep.emission?] at hemission

/-! ## The finished program -/

/-- An instruction of the finished program is one of the emissions. -/
theorem LaidOut.exists_emission (h : a.LaidOut es) (hwhole : ∀ e ∈ es, e.Whole)
    (hp : a.finish = .ok p) {i : Instruction} (hi : .ok i ∈ instructions p.code) :
    ∃ e ∈ es, e.operation? a.addressOf = some (i.opcode, i.argument) := by
  rw [h.instructions_finish hwhole hp, List.mem_map] at hi
  obtain ⟨j, hj, heq⟩ := hi
  obtain rfl := Except.ok.inj heq
  obtain ⟨before, after, hops, -⟩ := mem_placed_iff.1 hj
  exact List.mem_filterMap.1 (hops ▸ by simp)

theorem decodes_of_byLabel (hsteps : ∀ s ∈ steps, s.byLabel)
    (hp : (afterAll {} steps).finish = .ok p) : p.Decodes := by
  intro x hx
  rw [(laidOut_afterAll steps).instructions_finish (whole_of_byLabel hsteps) hp,
    List.mem_map] at hx
  obtain ⟨i, -, rfl⟩ := hx
  exact ⟨i, rfl⟩

/-- An instruction whose operand is an address names a landing. -/
theorem landing_of_byLabel (hsteps : ∀ s ∈ steps, s.byLabel)
    (hp : (afterAll {} steps).finish = .ok p) (hsize : p.code.size < 2 ^ 64) {i : Instruction}
    (hi : .ok i ∈ instructions p.code) (haddress : i.opcode.takesAddress) :
    p.Landing i.argument.toNat := by
  have h := laidOut_afterAll steps
  have hwhole := whole_of_byLabel hsteps
  obtain ⟨e, he, hoperation⟩ := h.exists_emission hwhole hp hi
  cases e with
  | operation op arg =>
    obtain ⟨rfl, rfl⟩ := Prod.mk.inj (Option.some.inj hoperation)
    rw [takesAddress_of_byLabel hsteps he] at haddress
    contradiction
  | jump op l =>
    obtain ⟨-, harg⟩ := Prod.mk.inj (Option.some.inj hoperation)
    have hland := h.landing_addressOf hwhole hp (h.known _ he l rfl)
    -- The address is spelled in eight bytes, and it fits because the code does.
    have hfits := Nat.mod_eq_of_lt (Nat.lt_of_le_of_lt hland.le_size hsize)
    rw [← harg]
    simp only [Argument.toNat, Argument.toNat?, Option.getD_some, UInt64.toNat_ofNat']
    rwa [hfits]
  | reference l => contradiction

/-- An instruction that pushes a string names one of the pool. -/
theorem index_lt_of_byLabel (hsteps : ∀ s ∈ steps, s.byLabel)
    (hp : (afterAll {} steps).finish = .ok p) {i : Instruction}
    (hi : .ok i ∈ instructions p.code) (hop : i.opcode = .pushString) :
    i.argument.toNat < p.strings.size := by
  have h := laidOut_afterAll steps
  obtain ⟨e, he, hoperation⟩ := h.exists_emission (whole_of_byLabel hsteps) hp hi
  cases e with
  | operation op arg =>
    obtain ⟨rfl, rfl⟩ := Prod.mk.inj (Option.some.inj hoperation)
    rw [hop] at he
    rw [strings_finish hp]
    exact index_lt_of_mem_emittedAll he
  | jump op l =>
    obtain ⟨rfl, -⟩ := Prod.mk.inj (Option.some.inj hoperation)
    have hshape : i.opcode.shape = .u64 := h.shaped _ he
    rw [hop] at hshape
    contradiction
  | reference l => contradiction

/-- **A program whose code addresses come from labels is sealed**, if its addresses fit in a word.
-/
theorem sealed_of_byLabel (hsteps : ∀ s ∈ steps, s.byLabel)
    (hp : (afterAll {} steps).finish = .ok p) (hsize : p.code.size < 2 ^ 64) : p.Sealed where
  decodes := decodes_of_byLabel hsteps hp
  targets := fun _ hi haddress => landing_of_byLabel hsteps hp hsize hi haddress
  strings := fun _ hi hop => index_lt_of_byLabel hsteps hp hi hop

end Assembly
end StackMachine
