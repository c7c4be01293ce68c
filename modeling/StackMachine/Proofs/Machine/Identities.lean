import StackMachine.Proofs.Machine.Bounds
import StackMachine.Proofs.Machine.Leads
import StackMachine.Proofs.Machine.Steps
import StackMachine.Proofs.Machine.Surroundings
import StackMachine.Proofs.Number.Integers

/-!
# Identities that are shown

The number by which the identity of a payload is shown is its address, and that is the allocator's
choice. What a run may rely on is that a condition takes it for true (`Heap.truthy_shown`). Two runs
of a program with payloads at different addresses can be compared as long as they show the same
(`Run.ShowsAlike`): payloads that are not asked for may be anywhere. So it is when the addresses are
the same, and whatever they are for a run that shows no address (`Run.SparesIdentities`).

Addresses are one of the things around a run. In all surroundings in which it shows the same, a run
goes step by step as it does elsewhere (`Run.advance_within`).
-/

namespace StackMachine

/-- **A condition tells values with a payload from those without**, wherever payloads are kept. -/
theorem Heap.truthy_shown (h : Heap) (a : Addresses) (v : Value) :
    h.truthy (a.shown v) = v.payload?.isSome := by
  unfold Addresses.shown
  cases v.payload? with
  | none => rfl
  | some p =>
    show (!(Number.ofNat (a.of p)).isZero) = true
    rw [Number.isZero_ofNat (a.pos p)]
    rfl

/-- Payloads so many words further on, as something else that is kept before them puts them. -/
def Addresses.further (a : Addresses) (words : Nat) : Addresses where
  of p := a.of p + 8 * words
  pos p := Nat.add_pos_left (a.pos p) _
  aligned p := Nat.dvd_add (a.aligned p) (Nat.dvd_mul_right 8 words)

/-- Payloads at other addresses. -/
def Resetting.relocated (a : Addresses) : Resetting := { addresses := fun _ => a }

namespace Run

variable {r s : Run} {a : Addresses} {i : Instruction}

/-- A run never shows the address of a payload. -/
def SparesIdentities (r : Run) : Prop :=
  ∀ n s i, r.advance n = .inl s → s.instruction? = some i → ¬i.ShowsIdentity s.machine

/-- A run shows the same with other addresses, whenever it shows an identity. -/
def ShowsAlike (r : Run) (a : Addresses) : Prop :=
  ∀ n s i, r.advance n = .inl s → s.instruction? = some i → i.ShowsAlike s.machine a

theorem ShowsAlike.now (h : r.ShowsAlike a) (hi : r.instruction? = some i) :
    i.ShowsAlike r.machine a :=
  h 0 r i rfl hi

theorem ShowsAlike.of_step_inl (h : r.ShowsAlike a) (hstep : r.step = .inl s) :
    s.ShowsAlike a := by
  intro n t i ht
  refine h (n + 1) t i ?_
  rw [advance_of_step_inl hstep, ht]

/-- The addresses do not matter to a run that shows none. -/
theorem SparesIdentities.showsAlike (h : r.SparesIdentities) (a : Addresses) :
    r.ShowsAlike a := by
  intro n s i hs hi hop v hv
  have hwithin := Instruction.showsAlikeWithin_of_not (h n s i hs hi)
    { settings := .relocated a } hop v hv
  rwa [Value.past_empty] at hwithin

/-- A run keeps its payloads where its settings say. -/
theorem showsAlike_start (config : Config) (p : Program) (sink : Sink) :
    ShowsAlike ⟨.start config p, sink⟩ config.addresses := by
  intro n s i hs hi hop v hv
  have hbounded := bounded_advance (r := ⟨.start config p, sink⟩)
    (Machine.bounded_start config p) n
  rw [hs] at hbounded
  rw [hbounded.limits]

/-- A program whose code nowhere has the byte of the opcode that shows identities. -/
theorem sparesIdentities_of_code {p : Program} (hcode : Opcode.identity.code ∉ p.code)
    (config : Config) (sink : Sink) : SparesIdentities ⟨.start config p, sink⟩ := by
  rintro n s i hs hinstruction ⟨hop, -⟩
  have hbounded := bounded_advance (r := ⟨.start config p, sink⟩)
    (Machine.bounded_start config p) n
  rw [hs] at hbounded
  obtain ⟨-, hdecode, -⟩ := instruction?_eq_some_iff.1 hinstruction
  rw [hbounded.program] at hdecode
  exact hcode (hop ▸ code_mem_of_decode hdecode)

end Run

/-! ## Runs in other surroundings -/

/-- The run in other surroundings, with the same trace so far. -/
def Run.within (w : Surroundings) (r : Run) : Run := { r with machine := r.machine.within w }

/-- The outcome in other surroundings: what the run wrote is the same. -/
def Outcome.within (w : Surroundings) (o : Outcome) : Outcome :=
  { o with
    machine := o.machine.within w, result := o.result.map (Array.map (Value.past w.older)) }

namespace Run

variable {r : Run} {i : Instruction} {w : Surroundings}

theorem trace?_within (htrace : w.settings.trace = id) (line : Unit → String) :
    (r.within w).trace? line = (r.trace? line).map (Run.within w) := by
  unfold trace?
  show (if w.settings.trace r.machine.config.trace then _ else _) = _
  rw [htrace]
  show (if r.machine.config.trace then _ else _) =
    Option.map _ (if r.machine.config.trace then _ else _)
  split
  · rw [Option.map_map]
    rfl
  · rfl

theorem finish_within : (r.within w).finish = r.finish.within w := by
  have hresults : (r.within w).machine.results = r.machine.results.map (Value.past w.older) :=
    Machine.results_within
  rw [finish, hresults]
  rfl

theorem follow_within (flow : Flow) :
    (r.within w).follow i flow = (r.follow i flow).map (Run.within w) (Outcome.within w) := by
  cases flow with
  | next | jump => rfl
  | halt => exact congrArg Sum.inr finish_within

/-- An instruction is traced and executed as it is elsewhere. -/
theorem perform_within (htrace : w.settings.trace = id)
    (hshows : ∀ s, r.trace? (fun _ => i.text r.machine.program) = some s →
      i.ShowsAlikeWithin w r.machine) :
    (r.within w).perform i = (r.perform i).map (Run.within w) (Outcome.within w) := by
  have hannounced : (r.within w).trace? (fun _ => i.text (r.within w).machine.program) =
      (r.trace? fun _ => i.text r.machine.program).map (Run.within w) := trace?_within htrace _
  cases hline : r.trace? fun _ => i.text r.machine.program with
  | none =>
    rw [hline] at hannounced
    rw [perform_of_refused hline, perform_of_refused hannounced]
    rfl
  | some s =>
    rw [hline] at hannounced
    have hs : s.machine = r.machine := machine_of_trace? hline
    have hexecute : Machine.execute i (s.within w).machine =
        Exec.resultWithin w id (Machine.execute i s.machine) :=
      Machine.execute_within (hs ▸ hshows s hline)
    cases hrun : Machine.execute i s.machine with
    | error why m =>
      rw [hrun] at hexecute
      rw [perform_of_error hline hrun, perform_of_error hannounced hexecute]
      rfl
    | ok flow m =>
      rw [hrun] at hexecute
      have hshown : trace? ⟨m.within w, s.sink⟩ (fun _ => (m.within w).stackLine) =
          (trace? ⟨m, s.sink⟩ fun _ => m.stackLine).map (Run.within w) := by
        rw [Machine.stackLine_within]
        exact trace?_within (r := ⟨m, s.sink⟩) htrace _
      cases hstack : trace? ⟨m, s.sink⟩ fun _ => m.stackLine with
      | none =>
        rw [hstack] at hshown
        rw [perform_of_refused_stack hline hrun hstack,
          perform_of_refused_stack hannounced hexecute hshown]
        rfl
      | some t =>
        rw [hstack] at hshown
        rw [perform_of_ok hline hrun hstack, perform_of_ok hannounced hexecute hshown]
        exact follow_within flow

/-- **One step in other surroundings**, where they leave the trace as it is and the budget is used
up as it was. -/
theorem step_within (htrace : w.settings.trace = id)
    (hused : exhausted? (r.machine.within w) = exhausted? r.machine)
    (hshows : ∀ i, r.instruction? = some i → i.ShowsAlikeWithin w r.machine) :
    (r.within w).step = r.step.map (Run.within w) (Outcome.within w) := by
  by_cases hinside : r.machine.ip < r.machine.program.code.size
  · cases hlimit : exhausted? r.machine with
    | some limit =>
      rw [step_of_exhausted hinside hlimit]
      exact step_of_exhausted (r := r.within w) hinside (hused.trans hlimit)
    | none =>
      have hfetches : r.Fetches := ⟨hinside, hlimit⟩
      have hfetches' : (r.within w).Fetches := ⟨hinside, hused.trans hlimit⟩
      cases hdecode : decode r.machine.program.code r.machine.ip with
      | error e =>
        rw [step_of_undecodable hfetches hdecode, step_of_undecodable hfetches' hdecode]
        rfl
      | ok i =>
        rw [step_of_decode hfetches hdecode, step_of_decode hfetches' hdecode]
        exact perform_within (r := ⟨r.counted, r.sink⟩) htrace fun s hline =>
          hshows i (instruction?_eq_some_iff.2 ⟨hfetches, hdecode, s, hline⟩)
  · rw [step_of_outside hinside, step_of_outside (r := r.within w) hinside, finish_within]
    rfl

theorem exhausted?_within {m : Machine} (hsteps : w.settings.maxSteps = id) :
    exhausted? (m.within w) = exhausted? m := by
  have hlimit : (m.within w).config.maxSteps = m.config.maxSteps := congrFun hsteps _
  rw [exhausted?, exhausted?, hlimit]
  rfl

/-- **A run in other surroundings** goes as it does elsewhere, as long as it shows the same. -/
theorem advance_within (htrace : w.settings.trace = id) (hsteps : w.settings.maxSteps = id)
    (hshows : ∀ n s i, r.advance n = .inl s → s.instruction? = some i →
      i.ShowsAlikeWithin w s.machine) (n : Nat) :
    (r.within w).advance n = (r.advance n).map (Run.within w) (Outcome.within w) := by
  induction n generalizing r with
  | zero => rfl
  | succ n ih =>
    have hstep := step_within htrace (exhausted?_within hsteps) fun i => hshows 0 r i rfl
    rw [advance, advance, hstep]
    cases hs : r.step with
    | inl s =>
      refine ih fun k t i ht => hshows (k + 1) t i ?_
      rw [advance_of_step_inl hs, ht]
    | inr o => rfl

end Run

/-! ## Runs under other settings -/

/-- The run under other settings, with the same trace so far. -/
def Run.under (r : Run) (c : Resetting) : Run := { r with machine := r.machine.under c }

/-- The outcome under other settings: what the run gave and wrote is the same. -/
def Outcome.under (o : Outcome) (c : Resetting) : Outcome := { o with machine := o.machine.under c }

theorem Run.within_settings (c : Resetting) : Run.within { settings := c } = (·.under c) := by
  funext r
  rw [within, Machine.within_settings, under]

theorem Outcome.within_settings (c : Resetting) :
    Outcome.within { settings := c } = (·.under c) := by
  funext o
  have hresult : o.result.map (Array.map (Value.past {})) = o.result := by
    rw [Value.past_empty, Array.map_id_fun]
    cases o.result <;> rfl
  rw [within, Machine.within_settings, hresult, under]

namespace Run

variable {r : Run} {c : Resetting} {a : Addresses}

/-- **One step under other settings**, where they leave the trace as it is and the budget is used up
as it was. -/
theorem step_under (hc : c.trace = id)
    (hused : exhausted? (r.machine.under c) = exhausted? r.machine)
    (hshows : r.ShowsAlike (c.addresses r.machine.config.addresses)) :
    (r.under c).step = r.step.map (·.under c) (·.under c) := by
  have hstep := step_within (w := { settings := c }) hc hused fun i hi => (hshows.now hi).within
  simpa only [within_settings, Outcome.within_settings] using hstep

/-- **With payloads at other addresses** a run goes as it does, as long as it shows the same. -/
theorem advance_relocated (h : r.ShowsAlike a) (n : Nat) :
    (r.under (.relocated a)).advance n =
      (r.advance n).map (·.under (.relocated a)) (·.under (.relocated a)) := by
  have hshows (n : Nat) (s : Run) (i : Instruction) (hs : r.advance n = .inl s)
      (hi : s.instruction? = some i) :
      i.ShowsAlikeWithin { settings := .relocated a } s.machine :=
    Instruction.ShowsAlike.within (c := .relocated a) (h n s i hs hi)
  have hadvance := advance_within (w := { settings := .relocated a }) rfl rfl hshows n
  simpa only [within_settings, Outcome.within_settings] using hadvance

end Run

theorem runWithin_relocated {config : Config} {p : Program} {sink : Sink} {a : Addresses}
    (h : Run.ShowsAlike ⟨.start config p, sink⟩ a) (fuel : Nat) :
    runWithin fuel { config with addresses := a } p sink =
      (runWithin fuel config p sink).map (·.under (.relocated a)) := by
  have hadvance : Run.advance ⟨.start { config with addresses := a } p, sink⟩ fuel = _ :=
    Run.advance_relocated h fuel
  rw [runWithin, runWithin, hadvance]
  cases Run.advance ⟨.start config p, sink⟩ fuel <;> rfl

end StackMachine
