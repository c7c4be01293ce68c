import StackMachine.Proofs.Machine.Discipline
import StackMachine.Proofs.Machine.Steps

/-!
# Runs under a discipline

A discipline governs a program when it admits whatever is decoded where control may stand. Then one
step of a run keeps it (`obeys_step`), so a run keeps it for as long as it goes on, and it ends with
a fault that the discipline allows, if with any (`obeys_advance`).
-/

namespace StackMachine

/-- A discipline by which a program can be run from its beginning. -/
structure Discipline.Governs (D : Discipline) (p : Program) : Prop where
  lawful : D.Lawful p
  start : D.address 0
  admits : ∀ x i, D.address x → decode p.code x = .ok i → D.Admits p i

/-- A run that ended as a discipline allows. If it met code that cannot be decoded, that is where
control was allowed to stand. -/
structure Outcome.Obeys (D : Discipline) (p : Program) (o : Outcome) : Prop where
  machine : o.machine.Obeys D p
  fault : ∀ offset why, o.result = .error (.fault offset why) → D.fault why
  undecodable : ∀ e, o.result = .error (.undecodable e) →
    ∃ x, D.address x ∧ x < p.code.size ∧ decode p.code x = .error e

namespace Run

/-- What a discipline asks of a run that goes on or has ended. -/
def Obeys (D : Discipline) (p : Program) : Run ⊕ Outcome → Prop
  | .inl r => r.machine.Obeys D p
  | .inr o => o.Obeys D p

variable {D : Discipline} {p : Program} {r : Run}

/-! ## One step -/

/-- A run may end with any error that is neither a fault nor code that cannot be decoded. -/
private theorem obeys_fail (hr : r.machine.Obeys D p) {e : MachineError}
    (hfault : ∀ offset why, e = .fault offset why → D.fault why)
    (hcode : ∀ why, e ≠ .undecodable why) : (r.fail e).Obeys D p where
  machine := hr
  fault := fun offset why h => hfault offset why (Except.error.inj h)
  undecodable := fun why h => absurd (Except.error.inj h) (hcode why)

private theorem obeys_finish (hr : r.machine.Obeys D p) : r.finish.Obeys D p where
  machine := hr
  fault := nofun
  undecodable := nofun

theorem obeys_follow (hr : r.machine.Obeys D p) {i : Instruction} (hi : D.Admits p i)
    {flow : Flow} (hflow : flow.Allowed D) : Obeys D p (r.follow i flow) := by
  cases flow with
  | next => exact { hr with ip := hi.next }
  | jump target => exact { hr with ip := hflow }
  | halt => exact obeys_finish hr

theorem obeys_perform (hD : D.Lawful p) (hr : r.machine.Obeys D p) {i : Instruction}
    (hi : D.Admits p i) : Obeys D p (r.perform i) := by
  unfold perform
  split
  · exact obeys_fail hr nofun nofun
  · next machine sink htrace =>
    have hmachine : machine = r.machine := machine_of_trace? htrace
    have hexec := Machine.keeps_execute hD hi machine (hmachine ▸ hr)
    split
    · next fault m hrun =>
      rw [hrun] at hexec
      refine obeys_fail (r := ⟨m, sink⟩) hexec.1 (fun offset why h => ?_) nofun
      obtain ⟨-, rfl⟩ := MachineError.fault.inj h
      exact hexec.2
    · next flow m hrun =>
      rw [hrun] at hexec
      split
      · exact obeys_fail (r := ⟨m, sink⟩) hexec.1 nofun nofun
      · next t htrace' =>
        have ht : t.machine.Obeys D p := by
          rw [machine_of_trace? htrace']
          exact hexec.1
        exact obeys_follow ht hi hexec.2

/-- **One step keeps the discipline.** -/
theorem obeys_step (hD : D.Governs p) (hr : r.machine.Obeys D p) : Obeys D p r.step := by
  unfold step
  split
  · next hinside =>
    split
    · exact obeys_fail hr nofun nofun
    · split
      · next e he =>
        refine ⟨{ hr with }, nofun, fun e' h => ?_⟩
        obtain rfl := MachineError.undecodable.inj (Except.error.inj h)
        rw [hr.program] at he hinside
        exact ⟨_, hr.ip, hinside, he⟩
      · next i hi =>
        rw [hr.program] at hi
        have hcounted : Machine.Obeys D p { r.machine with steps := r.machine.steps + 1 } :=
          { hr with }
        exact obeys_perform hD.lawful hcounted (hD.admits _ i hr.ip hi)
  · exact obeys_finish hr

/-! ## Any number of steps -/

/-- **A run keeps the discipline** for as long as it goes on, and ends as it allows. -/
theorem obeys_advance (hD : D.Governs p) (hr : r.machine.Obeys D p) (n : Nat) :
    Obeys D p (r.advance n) := by
  induction n generalizing r with
  | zero => exact hr
  | succ n ih =>
    have hstep := obeys_step hD hr
    unfold advance
    cases hs : r.step with
    | inl s =>
      rw [hs] at hstep
      exact ih hstep
    | inr o =>
      rw [hs] at hstep
      exact hstep

theorem obeys_advance_start (hD : D.Governs p) (config : Config) (sink : Sink) (n : Nat) :
    Obeys D p (advance ⟨.start config p, sink⟩ n) :=
  obeys_advance hD (Machine.obeys_start hD.lawful hD.start config) n

end Run
end StackMachine
