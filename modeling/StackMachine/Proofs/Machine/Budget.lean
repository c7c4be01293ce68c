import StackMachine.Proofs.Machine.Identities
import StackMachine.Proofs.Machine.Phases

/-!
# The budget of steps

A budget counts the instructions that a run fetches, and it is seen only by a run that needs more of
them. `Run.EndsAfter` says how a run ends and how many instructions it has fetched by then. A run
that stays within a budget is, state by state, the run without one; a run that needs more stops
where the other one is when the budget is used up (`budget_exact`). The two may keep their payloads
at different addresses, as long as they show the same of them.
-/

namespace StackMachine

/-- A budget and addresses in place of those that a run has. -/
def Resetting.budget (limit : Option Nat) (a : Addresses) : Resetting where
  maxSteps := fun _ => limit
  addresses := fun _ => a

/-- An outcome is the one under the budget and the addresses that it has. -/
theorem Outcome.under_budget_self {o : Outcome} {limit : Option Nat} {a : Addresses}
    (hlimit : o.machine.config.maxSteps = limit) (ha : o.machine.config.addresses = a) :
    o.under (.budget limit a) = o := by
  subst hlimit ha
  rfl

namespace Run

variable {r s : Run} {o o' : Outcome} {limit n k : Nat} {a : Addresses}

/-! ## How a run ends -/

/-- How a run ends, and how many instructions it fetches before it does. -/
inductive EndsAfter : Run → Nat → Outcome → Prop
  | stopped {r : Run} {o : Outcome} (hidle : ¬r.Fetches) (hstep : r.step = .inr o) :
      EndsAfter r 0 o
  | last {r : Run} {o : Outcome} (hfetches : r.Fetches) (hstep : r.step = .inr o) :
      EndsAfter r 1 o
  | step {r s : Run} {n : Nat} {o : Outcome} (hstep : r.step = .inl s)
      (hrest : EndsAfter s n o) : EndsAfter r (n + 1) o

theorem EndsAfter.advance (h : r.EndsAfter n o) : r.advance (n + 1) = .inr o := by
  induction h with
  | stopped hidle hstep => exact advance_of_step_inr hstep 0
  | last hfetches hstep => exact advance_of_step_inr hstep 1
  | step hstep hrest ih => rw [advance_of_step_inl hstep, ih]

/-- A run ends in one way only, after one number of instructions. -/
theorem EndsAfter.unique (h : r.EndsAfter n o) (h' : r.EndsAfter k o') : n = k ∧ o = o' := by
  induction h generalizing k o' with
  | stopped hidle hstep =>
    cases h' with
    | stopped _ hstep' => exact ⟨rfl, Sum.inr.inj (hstep.symm.trans hstep')⟩
    | last hfetches _ => exact absurd hfetches hidle
    | step hstep' _ => exact absurd (hstep.symm.trans hstep') nofun
  | last hfetches hstep =>
    cases h' with
    | stopped hidle _ => exact absurd hfetches hidle
    | last _ hstep' => exact ⟨rfl, Sum.inr.inj (hstep.symm.trans hstep')⟩
    | step hstep' _ => exact absurd (hstep.symm.trans hstep') nofun
  | step hstep hrest ih =>
    cases h' with
    | stopped _ hstep' => exact absurd (hstep.symm.trans hstep') nofun
    | last _ hstep' => exact absurd (hstep.symm.trans hstep') nofun
    | step hstep' hrest' =>
      obtain rfl := Sum.inl.inj (hstep.symm.trans hstep')
      obtain ⟨rfl, ho⟩ := ih hrest'
      exact ⟨rfl, ho⟩

/-- What ends does so after a number of instructions, at most one for each step. -/
theorem exists_endsAfter (h : r.advance n = .inr o) : ∃ k ≤ n, r.EndsAfter k o := by
  induction n generalizing r with
  | zero => contradiction
  | succ n ih =>
    cases hstep : r.step with
    | inl s =>
      rw [advance_of_step_inl hstep] at h
      obtain ⟨k, hk, hrest⟩ := ih h
      exact ⟨k + 1, Nat.succ_le_succ hk, .step hstep hrest⟩
    | inr o' =>
      rw [advance_of_step_inr hstep] at h
      obtain rfl := Sum.inr.inj h
      by_cases hfetches : r.Fetches
      · exact ⟨1, Nat.le_add_left 1 n, .last hfetches hstep⟩
      · exact ⟨0, Nat.zero_le _, .stopped hfetches hstep⟩

/-- The instructions that lead to a state are fetched before those that it leads to. -/
theorem endsAfter_of_advance (h : r.advance n = .inl s) (hrest : s.EndsAfter k o) :
    r.EndsAfter (n + k) o := by
  induction n generalizing r with
  | zero =>
    obtain rfl := Sum.inl.inj h
    rwa [Nat.zero_add]
  | succ n ih =>
    cases hstep : r.step with
    | inl q =>
      rw [advance_of_step_inl hstep] at h
      rw [Nat.add_right_comm]
      exact .step hstep (ih h)
    | inr o' =>
      rw [advance_of_step_inr hstep] at h
      contradiction

/-! ## What a step keeps and counts -/

/-- **A step after which the run goes on is counted**, and the settings are the same after it. -/
theorem config_steps_of_step_inl (h : r.step = .inl s) :
    s.machine.config = r.machine.config ∧ s.machine.steps = r.machine.steps + 1 := by
  obtain ⟨i, flow, m, x, -, hrun, -, hs⟩ := exists_of_step_inl h
  rw [hs]
  exact Machine.keeps_of_execute_ok hrun

/-- A step with which the run ends leaves the settings as they are. -/
theorem config_of_step_inr (h : r.step = .inr o) : o.machine.config = r.machine.config := by
  rcases machine_of_step_inr h with hsame | hsame | ⟨i, -, ⟨why, hrun⟩ | ⟨flow, hrun⟩⟩
  · rw [hsame]
  · rw [hsame]
    rfl
  · exact (Machine.prepared_of_execute_error hrun).config
  · exact (Machine.keeps_of_execute_ok hrun).1

/-- A run ends under the settings that it had. -/
theorem EndsAfter.config (h : r.EndsAfter n o) : o.machine.config = r.machine.config := by
  induction h with
  | stopped hidle hstep => exact config_of_step_inr hstep
  | last hfetches hstep => exact config_of_step_inr hstep
  | step hstep hrest ih => exact ih.trans (config_steps_of_step_inl hstep).1

/-! ## A run and the same run within a budget -/

/-- **One step within a budget** that is not used up is the step of the run without a budget. -/
theorem step_budget (hshows : r.ShowsAlike a) (hfree : r.machine.config.maxSteps = none)
    (hroom : r.machine.steps < limit) :
    (r.under (.budget (some limit) a)).step =
      r.step.map (·.under (.budget (some limit) a)) (·.under (.budget (some limit) a)) := by
  have hused : exhausted? (r.machine.under (.budget (some limit) a)) = exhausted? r.machine := by
    rw [exhausted?, exhausted?, hfree]
    exact if_neg (Nat.not_le.2 hroom)
  exact step_under rfl hused hshows

/-- **A run that needs no more than its budget** ends as it does without one. -/
theorem EndsAfter.budget (h : r.EndsAfter n o) (hshows : r.ShowsAlike a)
    (hfree : r.machine.config.maxSteps = none) (hroom : r.machine.steps + n ≤ limit) :
    (r.under (.budget (some limit) a)).EndsAfter n (o.under (.budget (some limit) a)) := by
  induction h with
  | @stopped r o hidle hstep =>
    -- Without a budget only the end of the code keeps a run from fetching.
    have houtside : ¬r.machine.ip < r.machine.program.code.size := fun hinside =>
      hidle ⟨hinside, by rw [exhausted?, hfree]⟩
    refine .stopped (fun hfetches => houtside hfetches.1) ?_
    rw [step_of_outside houtside] at hstep
    obtain rfl := Sum.inr.inj hstep
    exact step_of_outside houtside
  | last hfetches hstep =>
    refine .last ⟨hfetches.1, if_neg (Nat.not_le.2 hroom)⟩ ?_
    rw [step_budget hshows hfree hroom, hstep]
    rfl
  | step hstep hrest ih =>
    obtain ⟨hconfig, hsteps⟩ := config_steps_of_step_inl hstep
    refine .step ?_ (ih (hshows.of_step_inl hstep) (hconfig ▸ hfree) (by omega))
    rw [step_budget hshows hfree (by omega), hstep]
    rfl

/-- A run that starts its count at zero ends within a budget that is large enough. -/
theorem EndsAfter.advance_budget (h : r.EndsAfter n o) (hshows : r.ShowsAlike a)
    (hfree : r.machine.config.maxSteps = none) (hsteps : r.machine.steps = 0) (hle : n ≤ limit) :
    (r.under (.budget (some limit) a)).advance (limit + 1) =
      .inr (o.under (.budget (some limit) a)) := by
  have hroom : r.machine.steps + n ≤ limit := by omega
  have hends := h.budget hshows hfree hroom
  exact advance_of_le hends.advance (Nat.succ_le_succ hle)

/-- A run needs no more than a budget, or more or has no end. -/
theorem endsAfter_le_or_lt (r : Run) (limit : Nat) :
    (∃ n ≤ limit, ∃ o, r.EndsAfter n o) ∨ ∀ n o, r.EndsAfter n o → limit < n := by
  by_cases hshort : ∃ n ≤ limit, ∃ o, r.EndsAfter n o
  · exact .inl hshort
  · refine .inr fun n o hn => ?_
    by_contra hle
    exact hshort ⟨n, Nat.not_lt.1 hle, o, hn⟩

/-- **As long as the budget lasts** the run with it gets to where the run without one does, and
every step is counted. -/
theorem advance_budget (h : r.advance n = .inl s) (hshows : r.ShowsAlike a)
    (hfree : r.machine.config.maxSteps = none) (hroom : r.machine.steps + n ≤ limit) :
    (r.under (.budget (some limit) a)).advance n = .inl (s.under (.budget (some limit) a)) ∧
      s.machine.steps = r.machine.steps + n := by
  induction n generalizing r with
  | zero =>
    obtain rfl := Sum.inl.inj h
    exact ⟨rfl, rfl⟩
  | succ n ih =>
    cases hstep : r.step with
    | inr o =>
      rw [advance_of_step_inr hstep] at h
      contradiction
    | inl q =>
      rw [advance_of_step_inl hstep] at h
      obtain ⟨hconfig, hsteps⟩ := config_steps_of_step_inl hstep
      obtain ⟨hrest, hcount⟩ := ih h (hshows.of_step_inl hstep) (hconfig ▸ hfree) (by omega)
      refine ⟨?_, by omega⟩
      rw [advance, step_budget hshows hfree (by omega), hstep]
      exact hrest

/-- A run that needs more than its budget stops where the run without one has executed as many
instructions as the budget allows. -/
theorem exists_stepLimit (hshows : r.ShowsAlike a) (hfree : r.machine.config.maxSteps = none)
    (hsteps : r.machine.steps = 0) (hlonger : ∀ k o, r.EndsAfter k o → limit < k) :
    ∃ s, r.advance limit = .inl s ∧ (r.under (.budget (some limit) a)).advance (limit + 1) =
      .inr ((s.under (.budget (some limit) a)).fail (.stepLimit limit)) := by
  cases hreached : r.advance limit with
  | inr o =>
    obtain ⟨k, hk, hends⟩ := exists_endsAfter hreached
    exact absurd (hlonger k o hends) (Nat.not_lt.2 hk)
  | inl s =>
    have hroom : r.machine.steps + limit ≤ limit := by omega
    obtain ⟨hadvance, hcount⟩ := advance_budget hreached hshows hfree hroom
    -- At the end of the code the run would have needed no more than the budget.
    have hinside : s.machine.ip < s.machine.program.code.size := by
      by_contra houtside
      have hends : s.EndsAfter 0 s.finish :=
        .stopped (fun h => houtside h.1) (step_of_outside houtside)
      exact Nat.lt_irrefl _ (hlonger _ _ (endsAfter_of_advance hreached hends))
    have hcount : limit ≤ s.machine.steps := by omega
    have hlast : (s.under (.budget (some limit) a)).step = _ :=
      step_of_exhausted hinside (if_pos hcount)
    refine ⟨s, rfl, ?_⟩
    rw [advance_add, hadvance]
    exact advance_of_step_inr hlast 0

/-- **Every run within a budget ends.** -/
theorem exists_advance_budget (hshows : r.ShowsAlike a)
    (hfree : r.machine.config.maxSteps = none) (hsteps : r.machine.steps = 0) (limit : Nat) :
    ∃ o, (r.under (.budget (some limit) a)).advance (limit + 1) = .inr o := by
  rcases r.endsAfter_le_or_lt limit with ⟨n, hle, o, hn⟩ | hlonger
  · exact ⟨_, hn.advance_budget hshows hfree hsteps hle⟩
  · obtain ⟨s, -, hrun⟩ := exists_stepLimit hshows hfree hsteps hlonger
    exact ⟨_, hrun⟩

/-- A run that succeeds within a budget needs no more than that. -/
theorem exists_endsAfter_of_ok {values : Array Value} (hshows : r.ShowsAlike a)
    (hfree : r.machine.config.maxSteps = none) (hsteps : r.machine.steps = 0)
    (h : (r.under (.budget (some limit) a)).advance k = .inr o) (hvalues : o.result = .ok values) :
    ∃ n ≤ limit, ∃ o', r.EndsAfter n o' ∧ o = o'.under (.budget (some limit) a) := by
  rcases r.endsAfter_le_or_lt limit with ⟨n, hle, o', hn⟩ | hlonger
  · exact ⟨n, hle, o', hn, advance_unique h (hn.advance_budget hshows hfree hsteps hle)⟩
  · obtain ⟨s, -, hrun⟩ := exists_stepLimit hshows hfree hsteps hlonger
    obtain rfl := advance_unique h hrun
    contradiction

end Run

/-! ## Every run -/

/-- **A budget is exact, and otherwise not seen.** A run without a budget that ends does so after
one number of instructions. Within a budget that is not smaller the run ends in the same way, and
leaves and writes the same. With a smaller one, or when the run without a budget has no end, it
fails with the budget and leaves the machine of that run after as many instructions. So every run
within a budget ends, and one that succeeds does the same within every larger budget and without
one.

The run without a budget keeps its payloads at the addresses of the settings, and the runs within
one may keep them elsewhere, as long as what the first one shows of identities is shown alike. With
the same addresses it always is, and a run that spares identities leaves the addresses free. -/
theorem budget_exact (config : Config) (p : Program) (sink : Sink) :
    let within (budget : Option Nat) (a : Addresses) : Config :=
      { config with maxSteps := budget, addresses := a }
    let free : Run := ⟨.start (within none config.addresses) p, sink⟩
    (∀ o, (∃ fuel, runWithin fuel (within none config.addresses) p sink = some o) ↔
      ∃ n, free.EndsAfter n o) ∧
    (∀ n k o o', free.EndsAfter n o → free.EndsAfter k o' → n = k ∧ o = o') ∧
    (∀ a limit, ∃ o, runWithin (limit + 1) (within (some limit) a) p sink = some o) ∧
    free.ShowsAlike config.addresses ∧ (free.SparesIdentities → ∀ a, free.ShowsAlike a) ∧
    ∀ a, free.ShowsAlike a →
      (∀ limit n o, free.EndsAfter n o → n ≤ limit →
        runWithin (limit + 1) (within (some limit) a) p sink =
          some (o.under (.budget (some limit) a))) ∧
      (∀ limit, (∀ n o, free.EndsAfter n o → limit < n) →
        ∃ r, free.advance limit = .inl r ∧
          runWithin (limit + 1) (within (some limit) a) p sink =
            some ((r.under (.budget (some limit) a)).fail (.stepLimit limit))) ∧
      ∀ limit fuel o values, runWithin fuel (within (some limit) a) p sink = some o →
        o.result = .ok values →
        (∀ b more, free.ShowsAlike b → limit ≤ more →
          runWithin (more + 1) (within (some more) b) p sink =
            some (o.under (.budget (some more) b))) ∧
        ∃ fuel, runWithin fuel (within none config.addresses) p sink =
          some (o.under (.budget none config.addresses)) := by
  intro within free
  have hfree : free.machine.config.maxSteps = none := rfl
  simp only [runWithin_eq_some_iff]
  refine ⟨fun o => ?_, fun n k o o' hn hk => hn.unique hk, fun a limit => ?_,
    Run.showsAlike_start _ p sink, fun hspares a => hspares.showsAlike a, fun a ha =>
    ⟨fun limit n o hn hle => hn.advance_budget ha hfree rfl hle,
      fun limit hlonger => Run.exists_stepLimit ha hfree rfl hlonger, ?_⟩⟩
  · constructor
    · rintro ⟨fuel, hrun⟩
      obtain ⟨n, -, hn⟩ := Run.exists_endsAfter hrun
      exact ⟨n, hn⟩
    · rintro ⟨n, hn⟩
      exact ⟨n + 1, hn.advance⟩
  · exact Run.exists_advance_budget (Run.showsAlike_start (within none a) p sink) rfl rfl limit
  · intro limit fuel o values hrun hvalues
    obtain ⟨n, hle, o', hn, rfl⟩ := Run.exists_endsAfter_of_ok ha hfree rfl hrun hvalues
    refine ⟨fun b more hb hmore => hn.advance_budget hb hfree rfl (hle.trans hmore), n + 1, ?_⟩
    have hconfig := hn.config
    exact hn.advance.trans (congrArg Sum.inr
      (Outcome.under_budget_self (hconfig ▸ hfree) (congrArg Config.addresses hconfig)).symm)

/-- A program that makes an array and returns needs a budget of two, wherever the array is kept:
within two steps it ends well, and within one it fails where it stands before the return. -/
theorem return_needs_second_step :
    let p : Program := { code := #[0x06, 0, 0, 0, 0, 0x24] }
    let heap : Heap := { arrays := #[#[]] }
    let before : Machine := { program := p, ip := 5, stack := #[.nil, .array 0], steps := 1, heap }
    let after : Machine := { before with steps := 2 }
    let elsewhere : Addresses := Addresses.numbered.further 5
    Run.ShowsAlike ⟨.start {} p, {}⟩ elsewhere ∧
      runWithin 3 { maxSteps := some 2, addresses := elsewhere } p {} =
        some ⟨after.under (.budget (some 2) elsewhere), {}, .ok #[.array 0]⟩ ∧
      runWithin 2 { maxSteps := some 1, addresses := elsewhere } p {} =
        some ⟨before.under (.budget (some 1) elsewhere), {}, .error (.stepLimit 1)⟩ := by
  intro p heap before after elsewhere
  obtain ⟨-, hunique, -, -, hspared, hexact⟩ := budget_exact {} p {}
  have hspares : Run.SparesIdentities ⟨.start {} p, {}⟩ :=
    Run.sparesIdentities_of_code (by decide +kernel) {} {}
  have hshows := hspared hspares elsewhere
  obtain ⟨hwithin, hbeyond, -⟩ := hexact elsewhere hshows
  have hmake : decode p.code 0 = .ok ⟨0, .makeArray, .u32 0⟩ := by decide +kernel
  have hfirst : Run.step ⟨.start {} p, {}⟩ = .inl ⟨before, {}⟩ :=
    (Run.step_of_decode ⟨by decide, rfl⟩ hmake).trans rfl
  have hsecond : Run.step ⟨before, {}⟩ = .inr ⟨after, {}, .ok #[.array 0]⟩ := rfl
  have hends : Run.EndsAfter ⟨.start {} p, {}⟩ 2 ⟨after, {}, .ok #[.array 0]⟩ :=
    .step hfirst (.last ⟨by decide, rfl⟩ hsecond)
  refine ⟨hshows, hwithin 2 2 _ hends (Nat.le_refl 2), ?_⟩
  obtain ⟨r, hr, hstopped⟩ := hbeyond 1 fun n o hn => by
    rw [(hunique n 2 o _ hn hends).1]
    exact Nat.one_lt_two
  have hone := Run.advance_of_step_inl hfirst 0
  obtain rfl := Sum.inl.inj (hr.symm.trans hone)
  exact hstopped

/-- Where the address of an array is shown, the same program gives another number elsewhere. -/
example :
    let p : Program := { code := #[0x06, 0, 0, 0, 0, 0x52, 0x24] }
    (runWithin 4 {} p {}).map (·.result) = some (.ok #[.number (.ofNat 16)]) ∧
      (runWithin 4 { addresses := Addresses.numbered.further 5 } p {}).map (·.result) =
        some (.ok #[.number (.ofNat 56)]) := by
  decide +kernel

end StackMachine
