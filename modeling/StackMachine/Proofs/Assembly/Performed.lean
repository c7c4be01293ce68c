import StackMachine.Proofs.Assembly.ReadBack

/-!
# Sequences of steps that succeed

Steps that are performed one after another until one fails. Of a sequence in which none fails, all
steps that ask for an instruction emit it, a label that no step places stays where it was, and the
next instruction that is emitted stands at the current position.
-/

namespace StackMachine

/-- A step that reserves no address apart from an instruction emits nothing unless it asks for an
instruction. -/
theorem AssemblyStep.emission?_eq_none {step : AssemblyStep} (hraw : ∀ l, step ≠ .referTo l)
    (h : step.instruction? = none) (a : Assembly) : step.emission? a = none := by
  cases step with
  | referTo l => exact absurd rfl (hraw l)
  | newLabel name | placeLabel l | declare name isMutable | resolve name => rfl
  | emit op | emitWith op imm | emitJump op l | enterScope | exitScope => contradiction

namespace Assembly

/-- Steps are performed one after another, as long as they succeed. -/
def performAll (a : Assembly) (steps : List AssemblyStep) : Except AssemblyError Assembly :=
  steps.foldlM (fun b step => (b.perform step).map Prod.snd) a

variable {a b c : Assembly} {step : AssemblyStep} {steps before : List AssemblyStep}
  {es : List Emission} {l : Label}

/-! ## Taking sequences apart -/

theorem performAll_cons (a : Assembly) (step : AssemblyStep) (steps : List AssemblyStep) :
    a.performAll (step :: steps) =
      (a.perform step).map Prod.snd >>= fun b => b.performAll steps :=
  List.foldlM_cons ..

theorem performAll_append (a : Assembly) (before after : List AssemblyStep) :
    a.performAll (before ++ after) = a.performAll before >>= fun b => b.performAll after :=
  List.foldlM_append ..

theorem performAll_singleton (a : Assembly) (step : AssemblyStep) :
    a.performAll [step] = (a.perform step).map Prod.snd := by
  rw [performAll_cons]
  cases a.perform step <;> rfl

/-- After steps that succeed, more steps go on from where those led. -/
theorem performAll_append_of_ok (h : a.performAll before = .ok b) (after : List AssemblyStep) :
    a.performAll (before ++ after) = b.performAll after := by
  rw [performAll_append, h]
  rfl

/-- The first step of a sequence that succeeds. -/
theorem performAll_cons_ok (h : a.performAll (step :: steps) = .ok c) :
    ∃ reply b, a.perform step = .ok (reply, b) ∧ b.performAll steps = .ok c := by
  rw [performAll_cons] at h
  obtain ⟨b, hb, hrest⟩ := exists_of_bind_ok h
  obtain ⟨⟨reply, b⟩, hstep, rfl⟩ := exists_of_map_ok hb
  exact ⟨reply, b, hstep, hrest⟩

/-- Steps that succeed lead where they lead when failing is allowed. -/
theorem afterAll_of_performAll (h : a.performAll steps = .ok b) : a.afterAll steps = b := by
  induction steps generalizing a with
  | nil => exact Except.ok.inj h
  | cons step steps ih =>
    obtain ⟨reply, c, hstep, hrest⟩ := performAll_cons_ok h
    rw [afterAll, List.foldl_cons]
    change (a.after step).afterAll steps = b
    rw [after, hstep]
    exact ih hrest

/-! ## What succeeding steps do -/

/-- A label that no step places stays where it was. -/
theorem address?_performAll (h : a.performAll steps = .ok b) (hl : .placeLabel l ∉ steps) :
    b.address? l = a.address? l := by
  induction steps generalizing a with
  | nil =>
    obtain rfl := Except.ok.inj h
    rfl
  | cons step steps ih =>
    obtain ⟨reply, c, hstep, hrest⟩ := performAll_cons_ok h
    have hne : step ≠ .placeLabel l := by
      rintro rfl
      exact hl List.mem_cons_self
    rw [ih hrest fun h => hl (List.mem_cons_of_mem _ h), address?_perform hstep, if_neg hne]

theorem emittingCalls_append (h : a.performAll before = .ok b) (after : List AssemblyStep) :
    a.emittingCalls (before ++ after) = a.emittingCalls before ++ b.emittingCalls after := by
  induction before generalizing a with
  | nil =>
    obtain rfl := Except.ok.inj h
    rfl
  | cons step before ih =>
    obtain ⟨reply, c, hstep, hrest⟩ := performAll_cons_ok h
    rw [List.cons_append, emittingCalls, emittingCalls, hstep]
    dsimp only
    rw [ih hrest, List.append_assoc]

/-- All steps that ask for an instruction emit it. -/
theorem map_emittingCalls (h : a.performAll steps = .ok b) :
    (a.emittingCalls steps).map (fun call => (call.opcode, call.passed)) =
      steps.filterMap AssemblyStep.instruction? := by
  induction steps generalizing a with
  | nil => rfl
  | cons step steps ih =>
    obtain ⟨reply, c, hstep, hrest⟩ := performAll_cons_ok h
    rw [emittingCalls, hstep]
    dsimp only
    rw [List.map_append, ih hrest]
    cases hasked : step.instruction? with
    | none => rw [List.filterMap_cons_none hasked]; rfl
    | some x => rw [List.filterMap_cons_some hasked]; rfl

/-- **The next instruction** that is emitted stands at the current position; if there is none, that
is also the position in the end. -/
theorem LaidOut.head?_emittingCalls (h : a.LaidOut es) (hraw : ∀ l, .referTo l ∉ steps)
    (hb : a.performAll steps = .ok b) :
    ((a.emittingCalls steps).head?.map EmittingCall.position).getD b.position = a.position := by
  induction steps generalizing a es with
  | nil =>
    obtain rfl := Except.ok.inj hb
    rfl
  | cons step steps ih =>
    obtain ⟨reply, c, hstep, hrest⟩ := performAll_cons_ok hb
    rw [emittingCalls, hstep]
    dsimp only
    cases hasked : step.instruction? with
    | some x => rfl
    | none =>
      have hnone : step.emission? a = none :=
        AssemblyStep.emission?_eq_none (fun l hl => hraw l (by simp [hl])) hasked a
      rw [← h.position_of_emission?_eq_none hstep hnone]
      exact ih (h.perform hstep) (fun l hl => hraw l (by simp [hl])) hrest

end Assembly
end StackMachine
