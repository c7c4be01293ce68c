import StackMachine.Proofs.Machine.Budget
import StackMachine.Proofs.Text.SingleLine

/-!
# The trace of a run

A trace only observes. The lines that it has are those of the run that writes none: for every
instruction that was decoded its text, and then, if it succeeded, the stack that it left
(`Run.tracedLines`). As long as they are accepted the run that writes them is, state by state, the
run that does not; a line that is refused ends it, before the instruction that the line announces or
after the one whose stack it shows (`trace_observes_only`). The lines are kept in memory too, so the
two runs may keep their payloads at different addresses, as long as they show the same of them.
-/

namespace StackMachine

/-- A trace is written, and payloads are kept at these addresses. -/
def Resetting.traced (a : Addresses) : Resetting where
  trace := fun _ => true
  addresses := fun _ => a

/-! ## Lines that are accepted -/

namespace Sink

variable {s : Sink} {line : String} {lines : List String} {m n : Nat}

/-- A sink that was written these lines. -/
def extend (s : Sink) (lines : List String) : Sink := { s with lines := s.lines ++ lines.toArray }

/-- A sink accepts so many more lines. -/
def Accepts (s : Sink) (n : Nat) : Prop :=
  ∀ capacity, s.capacity = some capacity → s.lines.size + n ≤ capacity

theorem Accepts.of_le (h : s.Accepts n) (hle : m ≤ n) : s.Accepts m :=
  fun capacity hcapacity => (Nat.add_le_add_left hle _).trans (h capacity hcapacity)

theorem extend_nil (s : Sink) : s.extend [] = s := by
  rw [extend, Array.append_empty]

theorem write?_extend (h : s.Accepts (lines.length + 1)) (line : String) :
    (s.extend lines).write? line = some (s.extend (lines ++ [line])) := by
  obtain ⟨capacity, written⟩ := s
  have hpush : (written ++ lines.toArray).push line = written ++ (lines ++ [line]).toArray := by
    simp
  cases capacity with
  | none => exact congrArg (fun all => some (Sink.mk none all)) hpush
  | some capacity =>
    have hroom : (written ++ lines.toArray).size < capacity := by
      have hsize := h capacity rfl
      rw [Array.size_append, List.size_toArray]
      exact hsize
    exact (if_pos hroom).trans (congrArg (fun all => some (Sink.mk (some capacity) all)) hpush)

theorem write?_extend_eq_none (h : ¬s.Accepts (lines.length + 1)) (line : String) :
    (s.extend lines).write? line = none := by
  obtain ⟨capacity, written⟩ := s
  cases capacity with
  | none => exact absurd nofun h
  | some capacity =>
    have hfull : ¬(written ++ lines.toArray).size < capacity := by
      intro hroom
      rw [Array.size_append, List.size_toArray] at hroom
      refine h fun capacity' hcapacity => ?_
      obtain rfl := Option.some.inj hcapacity
      exact hroom
    exact if_neg hfull

end Sink

namespace Run

variable {r s : Run} {o : Outcome} {i : Instruction} {before : List String} {k n : Nat}

/-! ## The lines of a run -/

/-- The lines of an instruction: its text, and the stack that it leaves if it succeeds. -/
def instructionLines (m : Machine) (i : Instruction) : List String :=
  i.text m.program ::
    match Machine.execute i m with
    | .ok _ n => [n.stackLine]
    | .error _ _ => []

/-- The lines of the next step of a run: those of its instruction, if one is decoded. -/
def stepLines (r : Run) : List String :=
  if r.Fetches then
    match decode r.machine.program.code r.machine.ip with
    | .ok i => instructionLines r.counted i
    | .error _ => []
  else []

/-- The lines of so many steps of a run. -/
def tracedLines (r : Run) : Nat → List String
  | 0 => []
  | n + 1 =>
    r.stepLines ++
      match r.step with
      | .inl s => s.tracedLines n
      | .inr _ => []

theorem tracedLines_of_step_inl (h : r.step = .inl s) (n : Nat) :
    r.tracedLines (n + 1) = r.stepLines ++ s.tracedLines n := by
  rw [tracedLines, h]

theorem tracedLines_of_step_inr (h : r.step = .inr o) (n : Nat) :
    r.tracedLines (n + 1) = r.stepLines := by
  rw [tracedLines, h, List.append_nil]

theorem length_stepLines_le (r : Run) : r.stepLines.length ≤ 2 := by
  unfold stepLines instructionLines
  split
  · split
    · split <;> simp
    · simp
  · simp

theorem singleLine_of_mem_stepLines {line : String} (h : line ∈ r.stepLines) :
    Text.SingleLine line := by
  unfold stepLines at h
  split at h
  · split at h
    · next i _ =>
      rcases List.mem_cons.1 h with rfl | h
      · exact i.singleLine_text _
      · split at h
        · next m _ =>
          obtain rfl := List.mem_singleton.1 h
          exact m.singleLine_stackLine
        · contradiction
    · contradiction
  · contradiction

/-- **Every line of a trace is one line**, whatever strings the program holds. -/
theorem singleLine_of_mem_tracedLines {line : String} (h : line ∈ r.tracedLines n) :
    Text.SingleLine line := by
  induction n generalizing r with
  | zero => contradiction
  | succ n ih =>
    rw [tracedLines] at h
    rcases List.mem_append.1 h with h | h
    · exact singleLine_of_mem_stepLines h
    · cases hstep : r.step with
      | inl s =>
        rw [hstep] at h
        exact ih h
      | inr o =>
        rw [hstep] at h
        contradiction

/-! ## A run and the same run with a trace -/

/-- The run with a trace that has these lines, and with payloads at these addresses. -/
def traced (r : Run) (a : Addresses) (lines : List String) : Run :=
  ⟨r.machine.under (.traced a), r.sink.extend lines⟩

end Run

/-- The outcome with a trace that has these lines, and with payloads at these addresses. -/
def Outcome.traced (o : Outcome) (a : Addresses) (lines : List String) : Outcome :=
  ⟨o.machine.under (.traced a), o.sink.extend lines, o.result⟩

namespace Run

variable {r s : Run} {o : Outcome} {i : Instruction} {before : List String} {k n : Nat}
  {a : Addresses}

/-- Without a trace nothing is written. -/
theorem trace?_quiet (hquiet : r.machine.config.trace = false) (line : Unit → String) :
    r.trace? line = some r :=
  if_neg (by simp [hquiet])

/-- A run with a trace writes a line that is accepted. -/
theorem trace?_traced (hroom : r.sink.Accepts (before.length + 1)) (line : Unit → String) :
    (r.traced a before).trace? line = some (r.traced a (before ++ [line ()])) := by
  change Option.map _ ((r.sink.extend before).write? (line ())) = _
  rw [Sink.write?_extend hroom]
  rfl

/-- A run with a trace does not write a line that is refused. -/
theorem trace?_traced_eq_none (hfull : ¬r.sink.Accepts (before.length + 1))
    (line : Unit → String) : (r.traced a before).trace? line = none := by
  change Option.map _ ((r.sink.extend before).write? (line ())) = _
  rw [Sink.write?_extend_eq_none hfull]
  rfl

/-- **An instruction whose lines are accepted** is performed as without a trace. -/
theorem perform_traced (hquiet : r.machine.config.trace = false)
    (hshows : i.ShowsAlike r.machine a)
    (hroom : r.sink.Accepts (before.length + (instructionLines r.machine i).length)) :
    (r.traced a before).perform i =
      (r.perform i).map (·.traced a (before ++ instructionLines r.machine i))
        (·.traced a (before ++ instructionLines r.machine i)) := by
  have hbefore := trace?_quiet hquiet fun _ => i.text r.machine.program
  have hfirst : r.sink.Accepts (before.length + 1) :=
    hroom.of_le (by simp [instructionLines])
  have hline := trace?_traced (a := a) hfirst fun _ => i.text r.machine.program
  have hrun' : Machine.execute i (r.machine.under (.traced a)) = _ := Machine.execute_under hshows
  cases hrun : Machine.execute i r.machine with
  | error why m =>
    rw [hrun] at hrun'
    rw [perform_of_error hbefore hrun, perform_of_error hline hrun', instructionLines, hrun]
    rfl
  | ok flow m =>
    have hafter := trace?_quiet (r := ⟨m, r.sink⟩) ((Machine.keeps_of_execute_ok hrun).1 ▸ hquiet)
      fun _ => m.stackLine
    have hsecond : r.sink.Accepts ((before ++ [i.text r.machine.program]).length + 1) :=
      hroom.of_le (by simp [instructionLines, hrun])
    have hstack := trace?_traced (r := ⟨m, r.sink⟩) (a := a) hsecond fun _ => m.stackLine
    rw [hrun] at hrun'
    rw [perform_of_ok hbefore hrun hafter, perform_of_ok hline hrun' hstack, instructionLines, hrun,
      List.append_assoc]
    cases flow <;> rfl

/-! ## One step -/

theorem stepLines_of_decode (hfetches : r.Fetches)
    (hdecode : decode r.machine.program.code r.machine.ip = .ok i) :
    r.stepLines = instructionLines r.counted i := by
  rw [stepLines, if_pos hfetches, hdecode]

/-- **A step whose lines are accepted** is the step of the run without a trace. -/
theorem step_traced (hquiet : r.machine.config.trace = false) (hshows : r.ShowsAlike a)
    (hroom : r.sink.Accepts (before.length + r.stepLines.length)) :
    (r.traced a before).step =
      r.step.map (·.traced a (before ++ r.stepLines)) (·.traced a (before ++ r.stepLines)) := by
  by_cases hfetches : r.Fetches
  · have hfetches' : (r.traced a before).Fetches := hfetches
    cases hdecode : decode r.machine.program.code r.machine.ip with
    | ok i =>
      have hlines := stepLines_of_decode hfetches hdecode
      rw [hlines] at hroom ⊢
      rw [step_of_decode hfetches hdecode, step_of_decode hfetches' hdecode]
      have hinstruction := instruction?_eq_some_iff.2
        ⟨hfetches, hdecode, _, trace?_quiet (r := ⟨r.counted, r.sink⟩) hquiet _⟩
      exact perform_traced (r := ⟨r.counted, r.sink⟩) hquiet (hshows.now hinstruction) hroom
    | error e =>
      rw [stepLines, if_pos hfetches, step_of_undecodable hfetches hdecode,
        step_of_undecodable hfetches' hdecode, hdecode, List.append_nil]
      rfl
  · rw [stepLines, if_neg hfetches, List.append_nil]
    by_cases hinside : r.machine.ip < r.machine.program.code.size
    · cases hused : exhausted? r.machine with
      | none => exact absurd ⟨hinside, hused⟩ hfetches
      | some limit =>
        have hused' : exhausted? (r.traced a before).machine = some limit := hused
        rw [step_of_exhausted hinside hused]
        exact step_of_exhausted hinside hused'
    · rw [step_of_outside hinside]
      exact step_of_outside hinside

/-- The step of a run without a trace that executes an instruction. -/
theorem step_quiet (hquiet : r.machine.config.trace = false) (hfetches : r.Fetches)
    (hdecode : decode r.machine.program.code r.machine.ip = .ok i) {flow : Flow} {m : Machine}
    (hrun : Machine.execute i r.counted = .ok flow m) : r.step = follow ⟨m, r.sink⟩ i flow := by
  have hm : m.config.trace = false := (Machine.keeps_of_execute_ok hrun).1 ▸ hquiet
  rw [step_of_decode hfetches hdecode]
  exact perform_of_ok (trace?_quiet (r := ⟨r.counted, r.sink⟩) hquiet _) hrun
    (trace?_quiet (r := ⟨m, r.sink⟩) hm _)

theorem fetches_of_step_inl (h : r.step = .inl s) : r.Fetches := by
  by_contra hidle
  by_cases hinside : r.machine.ip < r.machine.program.code.size
  · cases hused : exhausted? r.machine with
    | none => exact hidle ⟨hinside, hused⟩
    | some limit => exact absurd ((step_of_exhausted hinside hused).symm.trans h) nofun
  · exact absurd ((step_of_outside hinside).symm.trans h) nofun

/-- **A step after which the run goes on has two lines**, and a run without a trace writes
neither. -/
theorem lines_of_step_inl (hquiet : r.machine.config.trace = false) (h : r.step = .inl s) :
    r.stepLines.length = 2 ∧ s.sink = r.sink ∧ s.machine.config.trace = false := by
  obtain ⟨i, flow, m, x, hdecode, hrun, -, -⟩ := exists_of_step_inl h
  have hfetches := fetches_of_step_inl h
  refine ⟨?_, ?_, (config_steps_of_step_inl h).1 ▸ hquiet⟩
  · rw [stepLines_of_decode hfetches hdecode, instructionLines, hrun]
    rfl
  · have hstep := step_quiet hquiet hfetches hdecode hrun
    rw [h] at hstep
    cases flow with
    | next | jump => rw [Sum.inl.inj hstep]
    | halt => contradiction

/-! ## Lines that are refused -/

/-- A refused line that announces an instruction leaves the machine before it. -/
theorem step_refused (hlines : r.stepLines ≠ [])
    (hfull : ¬r.sink.Accepts (before.length + 1)) :
    (r.traced a before).step =
      .inr ⟨r.counted.under (.traced a), r.sink.extend before, .error .traceRefused⟩ := by
  unfold stepLines at hlines
  split at hlines
  · next hfetches =>
    have hfetches' : (r.traced a before).Fetches := hfetches
    split at hlines
    · next i hdecode =>
      rw [step_of_decode hfetches' hdecode]
      exact perform_of_refused (trace?_traced_eq_none (r := ⟨r.counted, r.sink⟩) hfull _)
    · contradiction
  · contradiction

/-- A refused line that shows the stack leaves the machine after the instruction. -/
theorem step_refused_stack (hquiet : r.machine.config.trace = false) (hshows : r.ShowsAlike a)
    (hlines : 1 < r.stepLines.length) (hroom : r.sink.Accepts (before.length + 1))
    (hfull : ¬r.sink.Accepts (before.length + 2)) :
    ∃ i flow m, r.Fetches ∧ decode r.machine.program.code r.machine.ip = .ok i ∧
      Machine.execute i r.counted = .ok flow m ∧
      (r.traced a before).step =
        .inr ⟨m.under (.traced a), r.sink.extend (before ++ r.stepLines.take 1),
          .error .traceRefused⟩ := by
  by_cases hfetches : r.Fetches
  · have hfetches' : (r.traced a before).Fetches := hfetches
    cases hdecode : decode r.machine.program.code r.machine.ip with
    | error e => simp [stepLines, hfetches, hdecode] at hlines
    | ok i =>
      rw [stepLines_of_decode hfetches hdecode] at hlines ⊢
      have hinstruction := instruction?_eq_some_iff.2
        ⟨hfetches, hdecode, _, trace?_quiet (r := ⟨r.counted, r.sink⟩) hquiet _⟩
      have hrun' : Machine.execute i (r.counted.under (.traced a)) = _ :=
        Machine.execute_under (hshows.now hinstruction)
      cases hrun : Machine.execute i r.counted with
      | error why m => simp [instructionLines, hrun] at hlines
      | ok flow m =>
        rw [hrun] at hrun'
        have hline := trace?_traced (r := ⟨r.counted, r.sink⟩) (a := a) hroom
          fun _ => i.text r.machine.program
        have hsecond : ¬r.sink.Accepts ((before ++ [i.text r.machine.program]).length + 1) := by
          simpa using hfull
        have hstack :=
          trace?_traced_eq_none (r := ⟨m, r.sink⟩) (a := a) hsecond fun _ => m.stackLine
        refine ⟨i, flow, m, hfetches, rfl, hrun, ?_⟩
        rw [step_of_decode hfetches' hdecode]
        exact perform_of_refused_stack hline hrun' hstack
  · simp [stepLines, hfetches] at hlines

/-! ## Completed instructions -/

/-- The machine that a run has after so many completed instructions: the one that it goes on with,
or that an instruction has left which ended the run without an error. -/
inductive Completed : Run → Nat → Machine → Prop
  | zero (r : Run) : Completed r 0 r.machine
  | step {r s : Run} {n : Nat} {m : Machine} (hstep : r.step = .inl s)
      (hrest : Completed s n m) : Completed r (n + 1) m
  | last {r : Run} {o : Outcome} {values : Array Value} (hfetches : r.Fetches)
      (hstep : r.step = .inr o) (hvalues : o.result = .ok values) : Completed r 1 o.machine

end Run

/-- Two machines have the same stack, variables, scopes, calls and heap, and differ at most in their
settings, in where they stand and in the count of steps. -/
def Machine.Alike (m n : Machine) : Prop :=
  n = { m with config := n.config, ip := n.ip, steps := n.steps }

namespace Run

variable {r s : Run} {o : Outcome} {i : Instruction} {before : List String} {k n : Nat}
  {a : Addresses}

/-- An instruction that succeeds is completed. -/
theorem exists_completed_one (hquiet : r.machine.config.trace = false) (hfetches : r.Fetches)
    (hdecode : decode r.machine.program.code r.machine.ip = .ok i) {flow : Flow} {m : Machine}
    (hrun : Machine.execute i r.counted = .ok flow m) : ∃ q, r.Completed 1 q ∧ q.Alike m := by
  have hstep := step_quiet hquiet hfetches hdecode hrun
  cases flow with
  | next => exact ⟨_, .step hstep (.zero _), rfl⟩
  | jump target => exact ⟨_, .step hstep (.zero _), rfl⟩
  | halt => exact ⟨_, .last hfetches hstep rfl, rfl⟩

/-! ## Every run -/

/-- **A run whose lines are accepted** is the run without a trace, and has written its lines. -/
theorem advance_traced (hquiet : r.machine.config.trace = false) (hshows : r.ShowsAlike a)
    (hroom : r.sink.Accepts (before.length + (r.tracedLines n).length)) :
    (r.traced a before).advance n =
      (r.advance n).map (·.traced a (before ++ r.tracedLines n))
        (·.traced a (before ++ r.tracedLines n)) := by
  induction n generalizing r before with
  | zero =>
    rw [tracedLines, List.append_nil]
    rfl
  | succ n ih =>
    have hfirst : r.stepLines.length ≤ (r.tracedLines (n + 1)).length := by
      rw [tracedLines, List.length_append]
      exact Nat.le_add_right _ _
    rw [advance, advance, step_traced hquiet hshows (hroom.of_le (Nat.add_le_add_left hfirst _))]
    cases hstep : r.step with
    | inl s =>
      obtain ⟨-, hsink, hquiet'⟩ := lines_of_step_inl hquiet hstep
      rw [tracedLines_of_step_inl hstep, List.length_append, ← Nat.add_assoc,
        ← List.length_append, ← hsink] at hroom
      rw [tracedLines_of_step_inl hstep, ← List.append_assoc]
      exact ih hquiet' (hshows.of_step_inl hstep) hroom
    | inr o =>
      rw [tracedLines_of_step_inr hstep]
      rfl

/-- The first two lines of a run are those of its first step. -/
theorem lt_length_stepLines (hquiet : r.machine.config.trace = false) (hk : k < 2)
    (hlong : k < (r.tracedLines (n + 1)).length) : k < r.stepLines.length := by
  cases hstep : r.step with
  | inl s =>
    rw [(lines_of_step_inl hquiet hstep).1]
    exact hk
  | inr o => rwa [tracedLines_of_step_inr hstep] at hlong

/-- **A run that comes to a line that is refused** ends there, with the lines before it, and with
the machine that the run without a trace has after half as many instructions. -/
theorem advance_refused (hquiet : r.machine.config.trace = false) (hshows : r.ShowsAlike a)
    (hlong : k < (r.tracedLines n).length) (hroom : r.sink.Accepts (before.length + k))
    (hfull : ¬r.sink.Accepts (before.length + k + 1)) :
    ∃ o q, (r.traced a before).advance n = .inr o ∧ o.result = .error .traceRefused ∧
      o.sink = r.sink.extend (before ++ (r.tracedLines n).take k) ∧
      r.Completed ((k + 1) / 2) q ∧ q.Alike o.machine := by
  induction n generalizing r before k with
  | zero => contradiction
  | succ n ih =>
    match k with
    | 0 =>
      have hlines : r.stepLines ≠ [] :=
        List.ne_nil_of_length_pos (lt_length_stepLines hquiet Nat.zero_lt_two hlong)
      have hstep := step_refused (a := a) hlines hfull
      refine ⟨_, r.machine, advance_of_step_inr hstep n, rfl, ?_, .zero r, rfl⟩
      rw [List.take_zero, List.append_nil]
    | 1 =>
      have hlines := lt_length_stepLines hquiet Nat.one_lt_two hlong
      obtain ⟨i, flow, m, hfetches, hdecode, hrun, hstep⟩ :=
        step_refused_stack hquiet hshows hlines hroom hfull
      obtain ⟨q, hq, halike⟩ := exists_completed_one hquiet hfetches hdecode hrun
      refine ⟨_, q, advance_of_step_inr hstep n, rfl, ?_, hq, ?_⟩
      · rw [tracedLines, List.take_append_of_le_length hlines.le]
      · rw [Machine.Alike, halike]
        rfl
    | k + 2 =>
      cases hstep : r.step with
      | inr o =>
        rw [tracedLines_of_step_inr hstep] at hlong
        exact absurd (r.length_stepLines_le) (by omega)
      | inl s =>
        -- Both lines of the first instruction are accepted, and the others are two fewer.
        obtain ⟨htwo, hsink, hquiet'⟩ := lines_of_step_inl hquiet hstep
        have hlength : (before ++ r.stepLines).length + k = before.length + (k + 2) := by
          rw [List.length_append, htwo, Nat.add_assoc, Nat.add_comm 2 k]
        have hlong' : k < (s.tracedLines n).length := by
          rw [tracedLines_of_step_inl hstep, List.length_append, htwo] at hlong
          omega
        have hroom' : s.sink.Accepts ((before ++ r.stepLines).length + k) := by
          rwa [hsink, hlength]
        have hfull' : ¬s.sink.Accepts ((before ++ r.stepLines).length + k + 1) := by
          rwa [hsink, hlength]
        obtain ⟨o, q, hrun, hresult, hwritten, hq, halike⟩ :=
          ih hquiet' (hshows.of_step_inl hstep) hlong' hroom' hfull'
        refine ⟨o, q, ?_, hresult, ?_, ?_, halike⟩
        · rw [advance, step_traced hquiet hshows (hroom.of_le (by omega)), hstep]
          exact hrun
        · rw [hwritten, hsink, tracedLines_of_step_inl hstep, List.append_assoc, ← htwo,
            Nat.add_comm k, List.take_length_add_append]
        · have hhalf : (k + 2 + 1) / 2 = (k + 1) / 2 + 1 := by omega
          rw [hhalf]
          exact .step hstep hq

end Run

/-- **A trace only observes, line by line.** Where the lines are accepted, a run that writes them is
state by state the run that writes none, with the lines added, and each of them is one line. Where
the line of some number is refused and the run gets to it, the run fails there, having written the
lines before it, and leaves what the run without a trace has after half as many completed
instructions.

The run without a trace keeps its payloads at the addresses of the settings, and the one with a
trace may keep them elsewhere, as long as what the first one shows of identities is shown alike.
With the same addresses it always is, and a run that spares identities leaves the addresses free. -/
theorem trace_observes_only (config : Config) (p : Program) (sink : Sink) :
    let quiet : Run := ⟨.start { config with trace := false } p, sink⟩
    let traced (a : Addresses) : Run :=
      ⟨.start { config with trace := true, addresses := a } p, sink⟩
    (∀ n, ∀ line ∈ quiet.tracedLines n, Text.SingleLine line) ∧
    quiet.ShowsAlike config.addresses ∧ (quiet.SparesIdentities → ∀ a, quiet.ShowsAlike a) ∧
    ∀ a, quiet.ShowsAlike a →
      (∀ n, sink.Accepts (quiet.tracedLines n).length →
        (traced a).advance n =
          (quiet.advance n).map (·.traced a (quiet.tracedLines n))
            (·.traced a (quiet.tracedLines n))) ∧
      ∀ n m, 1 ≤ m → m ≤ (quiet.tracedLines n).length →
        sink.Accepts (m - 1) → ¬sink.Accepts m →
        ∃ o q, (traced a).advance n = .inr o ∧ o.result = .error .traceRefused ∧
          o.sink = sink.extend ((quiet.tracedLines n).take (m - 1)) ∧
          quiet.Completed (m / 2) q ∧ q.Alike o.machine := by
  intro quiet traced
  have hquiet : quiet.machine.config.trace = false := rfl
  refine ⟨fun n line hline => Run.singleLine_of_mem_tracedLines hline,
    Run.showsAlike_start _ p sink, fun hspares a => hspares.showsAlike a, fun a ha => ?_⟩
  have htraced : quiet.traced a [] = traced a := by
    change (⟨(traced a).machine, sink.extend []⟩ : Run) = traced a
    rw [Sink.extend_nil]
  constructor
  · intro n hroom
    rw [← htraced]
    exact Run.advance_traced hquiet ha (by rwa [List.length_nil, Nat.zero_add])
  · intro n m hm hlong hroom hfull
    obtain ⟨k, rfl⟩ := Nat.exists_eq_add_of_le' hm
    rw [← htraced]
    exact Run.advance_refused hquiet ha hlong (by rwa [List.length_nil, Nat.zero_add])
      (by rwa [List.length_nil, Nat.zero_add])

/-- A sink takes the line of the first instruction and refuses the one of the stack: the string with
a newline is pushed by then, and was written without one. The lines have put it elsewhere. -/
theorem refused_stack_line_follows_push :
    let entry : PoolEntry := ⟨"a\nb", 0⟩
    let p : Program := { code := #[0x05, 0, 0, 0, 0, 0x24], strings := #[entry] }
    let elsewhere : Addresses := Addresses.numbered.further 5
    Run.ShowsAlike ⟨.start {} p, { capacity := some 1 }⟩ elsewhere ∧
      ∃ o, Run.advance ⟨.start { trace := true, addresses := elsewhere } p,
          { capacity := some 1 }⟩ 2 = .inr o ∧
        o.result = .error .traceRefused ∧ o.sink.lines = #["0000  PSTR #0 \"a\\nb\""] ∧
        o.machine.stack.size = 2 := by
  intro entry p elsewhere
  obtain ⟨-, -, hspared, hobserves⟩ := trace_observes_only {} p { capacity := some 1 }
  have hshows := hspared (Run.sparesIdentities_of_code (by decide +kernel) {} _) elsewhere
  obtain ⟨o, q, hrun, hresult, hsink, hq, halike⟩ := (hobserves elsewhere hshows).2
    2 2 (by decide) (by decide +kernel) (by simp [Sink.Accepts]) (by simp [Sink.Accepts])
  refine ⟨hshows, o, hrun, hresult, ?_, ?_⟩
  · rw [hsink]
    decide +kernel
  · obtain ⟨s, hs, hsize⟩ : ∃ s, Run.step ⟨.start {} p, { capacity := some 1 }⟩ = .inl s ∧
        s.machine.stack.size = 2 := ⟨_, rfl, rfl⟩
    rw [halike]
    cases hq with
    | step hstep hrest =>
      obtain rfl := Sum.inl.inj (hs.symm.trans hstep)
      cases hrest
      exact hsize
    | last _ hstep _ => exact absurd (hs.symm.trans hstep) nofun

end StackMachine
