import StackMachine.Proofs.Machine.Phases
import StackMachine.Proofs.Machine.Steps
import StackMachine.Proofs.Prelude

/-!
# Bounds of a running machine

What every state of a run meets, whatever bytes the code is made of: control and the return
addresses are in the code or just after it, the stack and the open calls are within the limit, and
the marks of the open scopes are in order and not above the number of variables. The stack begins
with one value even where the limit is zero.
-/

namespace StackMachine

/-- The bounds that a machine keeps while it runs a program. -/
structure Machine.Bounded (config : Config) (p : Program) (m : Machine) : Prop where
  limits : m.config = config
  program : m.program = p
  ip : m.ip ≤ p.code.size
  stack : m.stack.size ≤ max 1 config.maxStack
  calls : m.frames.size ≤ config.maxStack
  returns : ∀ x ∈ m.frames, x ≤ p.code.size
  /-- A scope that was opened later has a mark that is not lower. -/
  ordered : m.marks.Pairwise (· ≥ ·)
  marked : ∀ mark ∈ m.marks, mark ≤ m.slots.size

namespace Machine

variable {config : Config} {p : Program} {m n : Machine} {i : Instruction}

theorem bounded_restart (m : Machine) : m.restart.Bounded m.config m.program where
  limits := rfl
  program := rfl
  ip := Nat.zero_le _
  stack := Nat.le_max_left _ _
  calls := Nat.zero_le _
  returns := by simp [restart]
  ordered := .nil
  marked := by simp [restart]

theorem bounded_start (config : Config) (p : Program) : (start config p).Bounded config p :=
  bounded_restart (start config p)

/-- Taking operands and making values keeps the bounds. -/
theorem Bounded.prepared (hm : m.Bounded config p) (h : m.Prepared n) : n.Bounded config p where
  limits := h.config.trans hm.limits
  program := h.program.trans hm.program
  ip := h.ip ▸ hm.ip
  stack := by
    have hshorter : n.stack.size ≤ m.stack.size := h.stack.length_le
    exact hshorter.trans hm.stack
  calls := h.frames ▸ hm.calls
  returns := h.frames ▸ hm.returns
  ordered := h.marks ▸ hm.ordered
  marked := h.marks ▸ h.slots ▸ hm.marked

/-- Taking a value out of the stack does not make it longer. -/
private theorem size_eraseIdxIfInBounds_le {α : Type} (xs : Array α) (i : Nat) :
    (xs.eraseIdxIfInBounds i).size ≤ xs.size := by
  rw [Array.size_eraseIdxIfInBounds]
  split
  · exact Nat.sub_le _ _
  · exact Nat.le_refl _

/-- **Every kind of ending keeps the bounds**, and goes to where control may stand. -/
theorem Bounded.completes {back : Nat} {kind : Ending} {flow : Flow} (hm : m.Bounded config p)
    (hback : back ≤ p.code.size) (h : m.Completes back kind flow n) :
    n.Bounded config p ∧ ∀ x, flow = .jump x → x ≤ p.code.size := by
  cases h with
  | push v hroom =>
    refine ⟨{ hm with stack := ?_ }, nofun⟩
    rw [hm.limits] at hroom
    rw [Array.size_push]
    omega
  | drop => exact ⟨hm, nofun⟩
  | define added =>
    refine ⟨{ hm with marked := fun mark hmark => ?_ }, nofun⟩
    rw [Array.size_append]
    exact Nat.le_add_right_of_le (hm.marked mark hmark)
  | store index v =>
    refine ⟨{ hm with marked := fun mark hmark => ?_ }, nofun⟩
    rw [Array.size_setIfInBounds]
    exact hm.marked mark hmark
  | enterScope =>
    -- The new mark is the number of variables, which no older mark exceeds.
    refine ⟨{ hm with ordered := .cons hm.marked hm.ordered, marked := ?_ }, nofun⟩
    intro mark hmark
    rcases List.mem_cons.1 hmark with rfl | hmark
    · exact Nat.le_refl _
    · exact hm.marked mark hmark
  | leaveScope hmarks =>
    next mark marks =>
    have hordered := hm.ordered
    rw [hmarks] at hordered
    obtain ⟨hbelow, hrest⟩ := List.pairwise_cons.1 hordered
    have hcut : mark ≤ m.slots.size := hm.marked mark (by simp [hmarks])
    refine ⟨{ hm with ordered := hrest, marked := ?_ }, nofun⟩
    intro mark' hmark'
    rw [Array.size_shrink, Nat.min_eq_left hcut]
    exact hbelow mark' hmark'
  | jump hinside =>
    refine ⟨hm, fun x hx => ?_⟩
    obtain rfl := Flow.jump.inj hx
    exact hm.program ▸ hinside
  | pass => exact ⟨hm, nofun⟩
  | call hcallee hroom hinside =>
    refine ⟨{ hm with stack := ?_, calls := ?_, returns := ?_ }, fun x hx => ?_⟩
    · exact (size_eraseIdxIfInBounds_le _ _).trans hm.stack
    · rw [hm.limits] at hroom
      rw [Array.size_push]
      exact hroom
    · intro x hx
      rcases Array.mem_push.1 hx with hx | rfl
      · exact hm.returns x hx
      · exact hback
    · obtain rfl := Flow.jump.inj hx
      exact hm.program ▸ hinside
  | ret hreturn =>
    refine ⟨{ hm with calls := ?_, returns := ?_ }, fun x hx => ?_⟩
    · rw [Array.size_pop]
      exact (Nat.sub_le _ _).trans hm.calls
    · exact fun x hx => hm.returns x (mem_of_mem_pop hx)
    · obtain rfl := Flow.jump.inj hx
      exact hm.returns _ (Array.mem_of_back? hreturn)
  | halt hnone => exact ⟨hm, nofun⟩
  | write heap => exact ⟨{ hm with }, nofun⟩

/-- **Executing an instruction of the code keeps the bounds**, whether it fails or not. -/
theorem Bounded.execute (hm : m.Bounded config p) (hnext : i.next ≤ p.code.size) :
    match execute i m with
    | .ok flow n => n.Bounded config p ∧ ∀ x, flow.destination? i = some x → x ≤ p.code.size
    | .error _ n => n.Bounded config p := by
  split
  · next flow n hrun =>
    obtain ⟨k, hprepared, hcompletes⟩ := completes_of_execute_ok hrun
    obtain ⟨hn, htarget⟩ := (hm.prepared hprepared).completes hnext hcompletes
    refine ⟨hn, fun x hx => ?_⟩
    cases flow with
    | next =>
      obtain rfl := Option.some.inj hx
      exact hnext
    | jump target =>
      obtain rfl := Option.some.inj hx
      exact htarget _ rfl
    | halt => contradiction
  · next why n hrun => exact hm.prepared (prepared_of_execute_error hrun)

end Machine

namespace Run

variable {config : Config} {p : Program} {r s : Run} {o : Outcome}

/-- The bounds of a run that goes on or has ended. -/
def Bounded (config : Config) (p : Program) : Run ⊕ Outcome → Prop
  | .inl r => r.machine.Bounded config p
  | .inr o => o.machine.Bounded config p

/-- **One step keeps the bounds.** -/
theorem bounded_step (hr : r.machine.Bounded config p) : Bounded config p r.step := by
  have hcounted : r.counted.Bounded config p := { hr with }
  cases hstep : r.step with
  | inl s =>
    obtain ⟨i, flow, m, x, hdecode, hrun, hx, hs⟩ := exists_of_step_inl hstep
    rw [hr.program] at hdecode
    have hexec := hcounted.execute (next_le_of_decode hdecode)
    rw [hrun] at hexec
    show s.machine.Bounded config p
    rw [hs]
    exact { hexec.1 with ip := hexec.2 x hx }
  | inr o =>
    show o.machine.Bounded config p
    rcases machine_of_step_inr hstep with hsame | hsame | ⟨i, hdecode, hrun⟩
    · exact hsame ▸ hr
    · exact hsame ▸ hcounted
    · rw [hr.program] at hdecode
      have hexec := hcounted.execute (next_le_of_decode hdecode)
      rcases hrun with ⟨why, hrun⟩ | ⟨flow, hrun⟩
      · rw [hrun] at hexec
        exact hexec
      · rw [hrun] at hexec
        exact hexec.1

/-- **A run keeps the bounds** as long as it goes on, and where it ends. -/
theorem bounded_advance (hr : r.machine.Bounded config p) (n : Nat) :
    Bounded config p (r.advance n) := by
  induction n generalizing r with
  | zero => exact hr
  | succ n ih =>
    have hstep := bounded_step hr
    rw [advance]
    cases hs : r.step with
    | inl s =>
      rw [hs] at hstep
      exact ih hstep
    | inr o =>
      rw [hs] at hstep
      exact hstep

end Run
end StackMachine
