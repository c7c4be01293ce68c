import StackMachine.Machine.Run
import StackMachine.Proofs.Instruction.Stream

/-!
# Runs that go on

How steps of a run are put together, and one step of a run that has no budget and whose trace, if it
writes one, is accepted: when the instruction that is decoded succeeds and leads on to the next one,
the run goes on there.
-/

namespace StackMachine.Run

variable {r s t : Run}

/-! ## Steps put together -/

theorem advance_add (r : Run) (m n : Nat) :
    r.advance (m + n) =
      match r.advance m with
      | .inl s => s.advance n
      | .inr o => .inr o := by
  induction m generalizing r with
  | zero => rw [Nat.zero_add]; rfl
  | succ m ih =>
    rw [Nat.add_right_comm]
    simp only [advance]
    cases hstep : r.step with
    | inl s => exact ih s
    | inr o => rfl

theorem advance_of_step_inl (h : r.step = .inl s) (n : Nat) : r.advance (n + 1) = s.advance n := by
  rw [advance, h]

theorem advance_of_step_inr {o : Outcome} (h : r.step = .inr o) (n : Nat) :
    r.advance (n + 1) = .inr o := by
  rw [advance, h]

/-- A run that has ended stays so. -/
theorem advance_of_le {o : Outcome} {n k : Nat} (h : r.advance n = .inr o) (hle : n ≤ k) :
    r.advance k = .inr o := by
  obtain ⟨m, rfl⟩ := Nat.exists_eq_add_of_le hle
  rw [advance_add, h]

/-- A run ends in one way only. -/
theorem advance_unique {o o' : Outcome} {n k : Nat} (h : r.advance n = .inr o)
    (h' : r.advance k = .inr o') : o = o' := by
  rcases Nat.le_total n k with hle | hle
  · exact Sum.inr.inj ((advance_of_le h hle).symm.trans h')
  · exact Sum.inr.inj (h.symm.trans (advance_of_le h' hle))

/-- What has ended did so with the step from some state of the run. -/
theorem exists_last_step {o : Outcome} {n : Nat} (h : r.advance n = .inr o) :
    ∃ k s, r.advance k = .inl s ∧ s.step = .inr o := by
  induction n generalizing r with
  | zero => contradiction
  | succ n ih =>
    cases hstep : r.step with
    | inl q =>
      rw [advance_of_step_inl hstep] at h
      obtain ⟨k, s, hs, hlast⟩ := ih h
      exact ⟨k + 1, s, by rw [advance_of_step_inl hstep, hs], hlast⟩
    | inr o' =>
      rw [advance_of_step_inr hstep] at h
      obtain rfl := Sum.inr.inj h
      exact ⟨0, r, rfl, hstep⟩

/-- A run gets from one state to another. -/
def Leads (r s : Run) : Prop := ∃ n, r.advance n = .inl s

theorem Leads.refl (r : Run) : r.Leads r := ⟨0, rfl⟩

theorem Leads.trans (hrs : r.Leads s) (hst : s.Leads t) : r.Leads t := by
  obtain ⟨m, hm⟩ := hrs
  obtain ⟨n, hn⟩ := hst
  refine ⟨m + n, ?_⟩
  rw [advance_add, hm]
  exact hn

theorem leads_of_step (h : r.step = .inl s) : r.Leads s := by
  refine ⟨1, ?_⟩
  rw [advance, h]
  rfl

/-- A run that gets to the end of the code ends there. -/
theorem Leads.exists_finish (h : r.Leads s)
    (hend : ¬s.machine.ip < s.machine.program.code.size) :
    ∃ n, r.advance n = .inr s.finish := by
  obtain ⟨n, hn⟩ := h
  refine ⟨n + 1, ?_⟩
  rw [advance_add, hn]
  show s.advance 1 = .inr s.finish
  rw [advance, step, if_neg hend]

/-! ## One instruction -/

/-- The trace of a run, if it writes one, has room for every line. -/
def Heard (config : Config) (sink : Sink) : Prop := config.trace → sink.capacity = none

/-- A line is accepted, and so will be every later one. -/
theorem exists_trace? (h : Heard r.machine.config r.sink) (line : Unit → String) :
    ∃ sink, r.trace? line = some { r with sink } ∧ Heard r.machine.config sink := by
  obtain ⟨machine, capacity, lines⟩ := r
  unfold trace?
  by_cases htrace : machine.config.trace
  · obtain rfl : capacity = none := h htrace
    refine ⟨⟨none, lines.push (line ())⟩, ?_, fun _ => rfl⟩
    rw [if_pos htrace]
    rfl
  · refine ⟨⟨capacity, lines⟩, ?_, fun h => absurd h htrace⟩
    rw [if_neg htrace]

/-- **One instruction that leads on to the next.** -/
theorem leads_of_execute {i : Instruction} {m : Machine}
    (hheard : Heard r.machine.config r.sink) (hbudget : r.machine.config.maxSteps = none)
    (hdecode : decode r.machine.program.code r.machine.ip = .ok i)
    (hrun : Machine.execute i { r.machine with steps := r.machine.steps + 1 } = .ok .next m)
    (hconfig : m.config = r.machine.config) :
    ∃ sink, r.Leads ⟨{ m with ip := i.next }, sink⟩ ∧ Heard m.config sink := by
  have hinside : r.machine.ip < r.machine.program.code.size := by
    have hnext := next_le_of_decode hdecode
    have hlt := i.lt_next
    have hoffset := offset_of_decode hdecode
    omega
  have hgoes : exhausted? r.machine = none := by rw [exhausted?, hbudget]
  -- One line is written before the instruction and one after it.
  obtain ⟨before, hbefore, hheard'⟩ := exists_trace?
    (r := { r with machine := { r.machine with steps := r.machine.steps + 1 } }) hheard
    fun _ => i.text r.machine.program
  obtain ⟨sink, hsink, hheard''⟩ := exists_trace? (r := ⟨m, before⟩) (hconfig ▸ hheard')
    fun _ => m.stackLine
  refine ⟨sink, leads_of_step ?_, hheard''⟩
  rw [step, if_pos hinside, hgoes]
  simp only [hdecode, perform, hbefore, hrun, hsink, follow]

end StackMachine.Run

namespace StackMachine

/-- A run that is bounded from outside ends as it does by itself. -/
theorem runWithin_eq_some_iff {fuel : Nat} {config : Config} {p : Program} {sink : Sink}
    {o : Outcome} :
    runWithin fuel config p sink = some o ↔ Run.advance ⟨.start config p, sink⟩ fuel = .inr o := by
  unfold runWithin
  cases Run.advance ⟨.start config p, sink⟩ fuel with
  | inl r => exact ⟨nofun, nofun⟩
  | inr o' => exact ⟨fun h => congrArg Sum.inr (Option.some.inj h),
      fun h => congrArg some (Sum.inr.inj h)⟩

end StackMachine
