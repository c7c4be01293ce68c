import StackMachine.Proofs.Assembly.Finish
import StackMachine.Proofs.Assembly.Pool

/-!
# Emission undone by decoding

The calls that emit instructions, and what the finished code is read back as: one instruction for
each such call, in the order of the calls (`finished_code_read_back`). An operand is what was passed
to the call, a text through its entry in the pool, a label through the position where it was last
placed.
-/

namespace StackMachine

/-! ## Calls that emit -/

/-- What is passed to a call that emits an instruction. -/
inductive Passed where
  | nothing
  | immediate (imm : Immediate)
  | label (l : Label)
deriving DecidableEq

/-- A call that emitted an instruction. -/
structure EmittingCall where
  /-- The position before the call. -/
  position : Nat
  opcode : Opcode
  passed : Passed
deriving DecidableEq

/-- The instruction that a step asks for: its opcode, and what is passed as its operand. -/
def AssemblyStep.instruction? : AssemblyStep → Option (Opcode × Passed)
  | .emit op => some (op, .nothing)
  | .emitWith op imm => some (op, .immediate imm)
  | .emitJump op l => some (op, .label l)
  | .enterScope => some (.enterScope, .nothing)
  | .exitScope => some (.leaveScope, .nothing)
  | .newLabel _ | .placeLabel _ | .referTo _ | .declare _ _ | .resolve _ => none

/-- The steps that succeed and ask for an instruction, in order. -/
def Assembly.emittingCalls (a : Assembly) : List AssemblyStep → List EmittingCall
  | [] => []
  | step :: steps =>
    match a.perform step with
    | .ok (_, b) =>
      (step.instruction?.map fun x => ⟨a.position, x.1, x.2⟩).toList ++ b.emittingCalls steps
    | .error _ => a.emittingCalls steps

/-! ## What is read back -/

/-- An operand is what was passed, when the program has these strings and `target` says which
addresses a label may stand for. -/
def Passed.ReadAs (strings : Array PoolEntry) (target : Label → Nat → Prop) :
    Passed → Argument → Prop
  | .nothing, arg => arg = .none
  | .immediate (.u8 n), arg => arg = .u8 n
  | .immediate (.u16 n), arg => arg = .u16 n
  | .immediate (.u32 n), arg => arg = .u32 n
  | .immediate (.u64 n), arg => arg = .u64 n
  | .immediate (.f64 x), arg => arg = .f64 x
  | .immediate (.text s), arg =>
    ∃ index, arg = .string index ∧ strings[index.toNat]? = some ⟨s, hashText s⟩
  | .label l, arg => ∃ x, target l x ∧ arg = .u64 (UInt64.ofNat x)

/-- An instruction is what a call asked for, at the position before the call. -/
structure EmittingCall.ReadAs (strings : Array PoolEntry) (target : Label → Nat → Prop)
    (call : EmittingCall) (i : Instruction) : Prop where
  offset : i.offset = call.position
  opcode : i.opcode = call.opcode
  argument : call.passed.ReadAs strings target i.argument

/-- A label was last placed at a position in a sequence of steps. -/
def PlacedLast (steps : List AssemblyStep) (l : Label) (x : Nat) : Prop :=
  ∃ before rest, steps = before ++ .placeLabel l :: rest ∧ .placeLabel l ∉ rest ∧
    x = (Assembly.afterAll {} before).position

namespace Assembly

open Emission (lengthAll)

variable {a b : Assembly} {es : List Emission} {steps : List AssemblyStep} {l : Label}

/-! ## Where labels were placed -/

/-- The address of a label, if it was placed. -/
def address? (a : Assembly) (l : Label) : Option Nat := (a.labels[l.index]?).bind LabelSlot.address

theorem addressOf_of_address? {x : Nat} (h : a.address? l = some x) : a.addressOf l = x :=
  congrArg (Option.getD · 0) h

theorem address?_congr (h : b.labels = a.labels) : b.address? l = a.address? l := by
  rw [address?, address?, h]

/-- A new place for a use of a label does not move the label. -/
theorem address?_referTo {label : Label} (h : a.referTo label = .ok b) :
    b.address? l = a.address? l := by
  obtain ⟨-, rfl⟩ := referTo_ok h
  simp only [address?, Array.getElem?_modify]
  split
  · cases a.labels[l.index]? <;> rfl
  · rfl

theorem address?_newLabel (name : Option String) :
    (a.newLabel name).2.address? l = a.address? l := by
  simp only [address?, newLabel, Array.getElem?_push]
  split
  · next hlast => rw [hlast, Array.getElem?_eq_none (Nat.le_refl _)]; rfl
  · rfl

theorem address?_placeLabel {label : Label} (h : a.placeLabel label = .ok b) :
    b.address? l = if label = l then some a.position else a.address? l := by
  have hknown : a.knows label := by
    by_contra hunknown
    rw [placeLabel, if_neg hunknown] at h
    contradiction
  obtain rfl := placeLabel_ok h
  simp only [address?, Array.getElem?_modify]
  by_cases hl : label = l
  · subst hl
    have hlt : label.index < a.labels.size := by simpa [knows] using hknown
    rw [if_pos rfl, if_pos rfl, Array.getElem?_eq_getElem hlt]
    rfl
  · have hindex : label.index ≠ l.index := fun h => hl (by cases label; cases l; simp_all)
    rw [if_neg hindex, if_neg hl]

/-- **Only placing a label gives it an address**, that of the current position. -/
theorem address?_perform {step : AssemblyStep} {reply : AssemblyReply}
    (h : a.perform step = .ok (reply, b)) (l : Label) :
    b.address? l = if step = .placeLabel l then some a.position else a.address? l := by
  cases step with
  | placeLabel label =>
    obtain ⟨c, hplace, ⟨⟩⟩ := exists_of_map_ok h
    rw [address?_placeLabel hplace]
    simp
  | newLabel name =>
    cases h
    rw [if_neg nofun, address?_newLabel]
  | emit op =>
    obtain ⟨c, hemit, ⟨⟩⟩ := exists_of_map_ok h
    obtain ⟨-, rfl⟩ := emit_ok hemit
    rw [if_neg nofun]
    exact address?_congr rfl
  | emitWith op imm =>
    obtain ⟨c, hemit, ⟨⟩⟩ := exists_of_map_ok h
    obtain ⟨-, -, rfl⟩ := emitWith_ok hemit
    rw [if_neg nofun]
    exact address?_congr rfl
  | referTo label =>
    obtain ⟨c, hrefer, ⟨⟩⟩ := exists_of_map_ok h
    rw [if_neg nofun, address?_referTo hrefer]
  | emitJump op label =>
    obtain ⟨c, hjump, ⟨⟩⟩ := exists_of_map_ok h
    obtain ⟨-, hrefer⟩ := emitJump_ok hjump
    rw [if_neg nofun, address?_referTo hrefer]
    exact address?_congr rfl
  | enterScope =>
    obtain ⟨c, henter, ⟨⟩⟩ := exists_of_map_ok (x := a.enterScope) h
    obtain rfl := enterScope_ok henter
    rw [if_neg nofun]
    exact address?_congr rfl
  | exitScope =>
    obtain ⟨c, hexit, ⟨⟩⟩ := exists_of_map_ok h
    obtain ⟨scopes, -, rfl⟩ := exitScope_ok hexit
    rw [if_neg nofun]
    exact address?_congr rfl
  | declare name isMutable =>
    obtain ⟨⟨index, c⟩, hdeclare, ⟨⟩⟩ := exists_of_map_ok h
    obtain ⟨-, -, rfl⟩ := declare_ok hdeclare
    rw [if_neg nofun]
    exact address?_congr rfl
  | resolve name =>
    obtain ⟨binding, -, ⟨⟩⟩ := exists_of_map_ok h
    rw [if_neg nofun]

/-- A label that has an address can be placed again. -/
theorem exists_perform_placeLabel {x : Nat} (h : a.address? l = some x) :
    ∃ b, a.perform (.placeLabel l) = .ok (.done, b) := by
  obtain ⟨slot, hslot, -⟩ := Option.bind_eq_some_iff.1 h
  obtain ⟨hlt, -⟩ := Array.getElem?_eq_some_iff.1 hslot
  have hknown : a.knows l := by simpa [knows] using hlt
  rw [perform, placeLabel, if_pos hknown]
  exact ⟨_, rfl⟩

theorem PlacedLast.append {x : Nat} (h : PlacedLast steps l x) {step : AssemblyStep}
    (hstep : step ≠ .placeLabel l) : PlacedLast (steps ++ [step]) l x := by
  obtain ⟨before, rest, rfl, hrest, rfl⟩ := h
  refine ⟨before, rest ++ [step], by simp, ?_, rfl⟩
  simp [hrest, Ne.symm hstep]

/-- **The address of a label is where it was last placed.** -/
theorem placedLast_of_address? {x : Nat} (h : (afterAll {} steps).address? l = some x) :
    PlacedLast steps l x := by
  induction steps using List.reverseRecOn generalizing x with
  | nil => contradiction
  | append_singleton steps step ih =>
    have hafter : afterAll {} (steps ++ [step]) = (afterAll {} steps).after step := by
      rw [afterAll, List.foldl_append]
      rfl
    rw [hafter, after] at h
    cases hstep : (afterAll {} steps).perform step with
    | error e =>
      rw [hstep] at h
      refine PlacedLast.append (ih h) ?_
      rintro rfl
      obtain ⟨b, hb⟩ := exists_perform_placeLabel h
      rw [hb] at hstep
      contradiction
    | ok r =>
      rw [hstep, address?_perform hstep l] at h
      split at h
      · next hl =>
        obtain rfl := Option.some.inj h
        exact ⟨steps, [], by rw [hl], by simp, rfl⟩
      · next hl => exact PlacedLast.append (ih h) hl

/-! ## What one call is read back as -/

variable {strings : Array PoolEntry} {target : Label → Nat → Prop} {address : Label → Nat}

/-- The operand of an immediate is read as that immediate wherever its text is kept. -/
theorem readAs_of_emitWith {op : Opcode} {imm : Immediate} (h : a.emitWith op imm = .ok b)
    (added : Array PoolEntry) :
    (Passed.immediate imm).ReadAs (b.strings ++ added) target (imm.argument a.strings.size) := by
  obtain ⟨-, -, hb⟩ := emitWith_ok h
  cases imm with
  | text s =>
    refine ⟨_, rfl, ?_⟩
    rw [toNat_index_of_emitWith h, hb, Array.append_assoc,
      Array.getElem?_append_right (Nat.le_refl _), Nat.sub_self]
    simp [Immediate.pooled, PoolEntry.ofText]
  | _ => rfl

/-- A step that succeeds asks for an instruction when it emits one, with an operand that is read as
what was passed. -/
theorem readAs_of_perform {step : AssemblyStep} {reply : AssemblyReply}
    (h : a.perform step = .ok (reply, b)) (added : Array PoolEntry) (hraw : ∀ l, step ≠ .referTo l)
    (htarget : ∀ op l, step.emission? a = some (.jump op l) → target l (address l)) :
    (step.instruction? = none ∧ step.emission? a = none) ∨
      ∃ op passed arg e, step.instruction? = some (op, passed) ∧ step.emission? a = some e ∧
        e.operation? address = some (op, arg) ∧
        passed.ReadAs (b.strings ++ added) target arg := by
  cases step with
  | emit op => exact .inr ⟨op, .nothing, .none, _, rfl, rfl, rfl, rfl⟩
  | emitWith op imm =>
    obtain ⟨c, hemit, ⟨⟩⟩ := exists_of_map_ok h
    exact .inr ⟨op, .immediate imm, _, _, rfl, rfl, rfl, readAs_of_emitWith hemit added⟩
  | referTo l => exact absurd rfl (hraw l)
  | emitJump op l =>
    exact .inr ⟨op, .label l, _, _, rfl, rfl, rfl, address l, htarget op l rfl, rfl⟩
  | enterScope => exact .inr ⟨.enterScope, .nothing, .none, _, rfl, rfl, rfl, rfl⟩
  | exitScope => exact .inr ⟨.leaveScope, .nothing, .none, _, rfl, rfl, rfl, rfl⟩
  | newLabel name | placeLabel l | declare name isMutable | resolve name => exact .inl ⟨rfl, rfl⟩

/-- A step that emits nothing leaves the position. -/
theorem LaidOut.position_of_emission?_eq_none (h : a.LaidOut es) {step : AssemblyStep}
    {reply : AssemblyReply} (hstep : a.perform step = .ok (reply, b))
    (hnone : step.emission? a = none) : b.position = a.position := by
  rw [(h.perform hstep).position, h.position, hnone, Option.toList_none, List.append_nil]

/-- A step that emits an operation moves the position past it. -/
theorem LaidOut.position_perform (h : a.LaidOut es) {step : AssemblyStep} {reply : AssemblyReply}
    (hstep : a.perform step = .ok (reply, b)) {e : Emission} (he : step.emission? a = some e)
    {op : Opcode} {arg : Argument} (hoperation : e.operation? address = some (op, arg)) :
    b.position = a.position + op.size := by
  have hb := h.perform hstep
  rw [he] at hb
  have hwhole : e.Whole := by
    rintro l rfl
    contradiction
  obtain ⟨x, hx, -, hsize, -⟩ :=
    Emission.exists_operation hwhole (hb.shaped e (by simp)) address
  rw [hoperation] at hx
  obtain rfl := Option.some.inj hx
  rw [hb.position, h.position, hsize]
  simp [lengthAll]

/-- **Calls and instructions correspond** one to one and in order, from any position on. -/
theorem LaidOut.forall₂_emittingCalls (h : a.LaidOut es) (hraw : ∀ l, .referTo l ∉ steps)
    (htarget : ∀ op l, .jump op l ∈ a.emittedAll steps → target l (address l)) :
    List.Forall₂ (EmittingCall.ReadAs (a.afterAll steps).strings target) (a.emittingCalls steps)
      (placed a.position ((a.emittedAll steps).filterMap (Emission.operation? address))) := by
  induction steps generalizing a es with
  | nil => exact .nil
  | cons step steps ih =>
    have hlater : ∀ l, .referTo l ∉ steps := fun l hl => hraw l (by simp [hl])
    rw [emittedAll, List.filterMap_append]
    rw [emittedAll] at htarget
    show List.Forall₂ (EmittingCall.ReadAs ((a.after step).afterAll steps).strings target) _ _
    cases hstep : a.perform step with
    | error e =>
      have hafter : a.after step = a := by rw [Assembly.after, hstep]
      have hnone : a.emitted step = [] := by rw [emitted, hstep]
      rw [hafter, hnone] at htarget ⊢
      rw [emittingCalls, hstep]
      exact ih h hlater htarget
    | ok r =>
      obtain ⟨reply, b⟩ := r
      have hafter : a.after step = b := by rw [Assembly.after, hstep]
      have hemitted : a.emitted step = (step.emission? a).toList := by rw [emitted, hstep]
      rw [hafter, hemitted] at htarget ⊢
      rw [emittingCalls, hstep]
      have hrest := ih (h.perform hstep) hlater fun op l hl => htarget op l (by simp [hl])
      obtain ⟨added, hadded, -⟩ := exists_strings_afterAll b steps
      rw [hadded] at hrest ⊢
      have hcall := readAs_of_perform hstep added (fun l hl => hraw l (by simp [hl]))
        fun op l hl => htarget op l (by simp [hl])
      rcases hcall with ⟨hinstruction, hemission⟩ | ⟨op, passed, arg, e, hinstruction, hemission,
        hoperation, hread⟩
      · -- Nothing is emitted, so the position is the same.
        rw [hinstruction, hemission]
        rw [h.position_of_emission?_eq_none hstep hemission] at hrest
        exact hrest
      · rw [hinstruction, hemission]
        rw [h.position_perform hstep hemission hoperation] at hrest
        simp only [Option.toList_some, List.filterMap_cons, hoperation, List.filterMap_nil,
          Option.map_some, List.singleton_append, placed]
        exact .cons ⟨rfl, rfl, hread⟩ hrest

/-! ## The finished program -/

/-- **Emission is undone by decoding.** When steps reserve no address apart from an instruction and
the assembly is finished, the code is read without an error as one instruction for each call that
emitted one, in the order of the calls. Each is at the position before its call and has the opcode
and the operand of the call: the same integer or the same bits, for a text the index of an entry
with that text and its hash, and for a label the position where it was last placed, as a word. -/
theorem finished_code_read_back {p : Program} (hraw : ∀ l, .referTo l ∉ steps)
    (hp : (afterAll {} steps).finish = .ok p) :
    ∃ is, instructions p.code = is.map .ok ∧
      List.Forall₂ (EmittingCall.ReadAs p.strings (PlacedLast steps)) (emittingCalls {} steps)
        is := by
  have h := laidOut_afterAll steps
  refine ⟨_, h.instructions_finish (whole_of_noReference hraw) hp, ?_⟩
  rw [strings_finish hp]
  refine laidOut_empty.forall₂_emittingCalls hraw fun op l hl => ?_
  -- A label that was jumped to is known, and all known labels have an address.
  have hknown : l.index < (afterAll {} steps).labels.size := h.known _ hl l rfl
  obtain ⟨x, hx⟩ := Option.isSome_iff_exists.1 ((h.finish hp).1 _ (Array.getElem_mem hknown))
  have haddress : (afterAll {} steps).address? l = some x := by
    rw [address?, Array.getElem?_eq_getElem hknown]
    exact hx
  have hlast := placedLast_of_address? haddress
  rwa [addressOf_of_address? haddress]

/-- A label that is placed twice, a text and a step that fails: the jump goes to the second place,
and nothing is emitted for the step that fails. -/
theorem moved_label_read_back :
    let steps : List AssemblyStep := [
      .newLabel (some "end"), .emitJump .jump ⟨0⟩, .placeLabel ⟨0⟩,
      .emitWith .pushString (.text "a"), .exitScope, .emitWith .pushInt (.u8 7), .placeLabel ⟨0⟩,
      .emit .pop]
    let calls : List EmittingCall := [
      ⟨0, .jump, .label ⟨0⟩⟩, ⟨9, .pushString, .immediate (.text "a")⟩,
      ⟨14, .pushInt, .immediate (.u8 7)⟩, ⟨16, .pop, .nothing⟩]
    let p : Program := {
      code := #[0x20, 16, 0, 0, 0, 0, 0, 0, 0, 0x05, 0, 0, 0, 0, 0x03, 7, 0x10]
      strings := #[.ofText "a"] }
    (∀ l, .referTo l ∉ steps) ∧ (afterAll {} steps).finish = .ok p ∧
      emittingCalls {} steps = calls ∧
      ∃ is, instructions p.code = is.map .ok ∧
        List.Forall₂ (EmittingCall.ReadAs p.strings (PlacedLast steps)) calls is := by
  intro steps calls p
  have hraw : ∀ l, .referTo l ∉ steps := by simp [steps]
  have hp : (afterAll {} steps).finish = .ok p := by decide +kernel
  have hcalls : emittingCalls {} steps = calls := by decide +kernel
  exact ⟨hraw, hp, hcalls, hcalls ▸ finished_code_read_back hraw hp⟩

end Assembly
end StackMachine
