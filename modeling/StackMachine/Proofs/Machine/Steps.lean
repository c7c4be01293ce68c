import StackMachine.Machine.Run
import StackMachine.Proofs.Instruction.Stream

/-!
# Steps and paths of a run

What one step of a run comes to (`Run.steps_step`): a step after which the run goes on has executed
the instruction that was decoded where control stood (`exists_of_step_inl`), and a step with which
the run ends leaves the machine as it was, or as the instruction left it (`machine_of_step_inr`). A
path is a run with the opcodes that it executes, one for each step.
-/

namespace StackMachine

/-- Where control goes after an instruction; nowhere when the machine halts. -/
def Flow.destination? (i : Instruction) : Flow → Option Nat
  | .next => some i.next
  | .jump target => some target
  | .halt => none

namespace Run

variable {r s t : Run} {o : Outcome} {i : Instruction}

/-- The machine of a run that goes on or has ended. -/
def machineOf : Run ⊕ Outcome → Machine
  | .inl r => r.machine
  | .inr o => o.machine

/-- The machine as an instruction is executed on it: the step is counted. -/
def counted (r : Run) : Machine := { r.machine with steps := r.machine.steps + 1 }

/-- A run is about to fetch an instruction, which need not be one that can be decoded. -/
def Fetches (r : Run) : Prop :=
  r.machine.ip < r.machine.program.code.size ∧ exhausted? r.machine = none

instance (r : Run) : Decidable r.Fetches :=
  inferInstanceAs (Decidable (r.machine.ip < r.machine.program.code.size ∧
    exhausted? r.machine = none))

/-! ## One step -/

/-- At the end of the code a run ends well. -/
theorem step_of_outside (houtside : ¬r.machine.ip < r.machine.program.code.size) :
    r.step = .inr r.finish :=
  if_neg houtside

/-- Before an instruction that the budget does not allow a run fails. -/
theorem step_of_exhausted {limit : Nat} (hinside : r.machine.ip < r.machine.program.code.size)
    (hused : exhausted? r.machine = some limit) : r.step = .inr (r.fail (.stepLimit limit)) := by
  rw [step, if_pos hinside, hused]

theorem step_of_undecodable {e : DecodeError} (hfetches : r.Fetches)
    (hdecode : decode r.machine.program.code r.machine.ip = .error e) :
    r.step = .inr (fail ⟨r.counted, r.sink⟩ (.undecodable e)) := by
  rw [step, if_pos hfetches.1, hfetches.2]
  dsimp only
  rw [hdecode]
  rfl

theorem step_of_decode (hfetches : r.Fetches)
    (hdecode : decode r.machine.program.code r.machine.ip = .ok i) :
    r.step = perform ⟨r.counted, r.sink⟩ i := by
  rw [step, if_pos hfetches.1, hfetches.2]
  dsimp only
  rw [hdecode]
  rfl

/-- A line of the trace changes nothing else. -/
theorem machine_of_trace? {line : Unit → String} (h : r.trace? line = some s) :
    s.machine = r.machine := by
  unfold trace? at h
  split at h
  · obtain ⟨sink, -, rfl⟩ := Option.map_eq_some_iff.1 h
    rfl
  · obtain rfl := Option.some.inj h
    rfl

/-- The line of an instruction is refused. -/
theorem perform_of_refused (hline : r.trace? (fun _ => i.text r.machine.program) = none) :
    r.perform i = .inr (r.fail .traceRefused) := by
  rw [perform, hline]

/-- An instruction fails. -/
theorem perform_of_error {why : Fault} {m : Machine}
    (hline : r.trace? (fun _ => i.text r.machine.program) = some s)
    (hrun : Machine.execute i s.machine = .error why m) :
    r.perform i = .inr (fail ⟨m, s.sink⟩ (.fault i.offset why)) := by
  rw [perform, hline]
  dsimp only
  rw [hrun]

/-- An instruction succeeds, and the line that shows the stack is refused. -/
theorem perform_of_refused_stack {flow : Flow} {m : Machine}
    (hline : r.trace? (fun _ => i.text r.machine.program) = some s)
    (hrun : Machine.execute i s.machine = .ok flow m)
    (hstack : trace? ⟨m, s.sink⟩ (fun _ => m.stackLine) = none) :
    r.perform i = .inr (fail ⟨m, s.sink⟩ .traceRefused) := by
  rw [perform, hline]
  dsimp only
  rw [hrun]
  dsimp only
  rw [hstack]

/-- An instruction succeeds, and what follows is up to it. -/
theorem perform_of_ok {flow : Flow} {m : Machine}
    (hline : r.trace? (fun _ => i.text r.machine.program) = some s)
    (hrun : Machine.execute i s.machine = .ok flow m)
    (hstack : trace? ⟨m, s.sink⟩ (fun _ => m.stackLine) = some t) :
    r.perform i = t.follow i flow := by
  rw [perform, hline]
  dsimp only
  rw [hrun]
  dsimp only
  rw [hstack]

/-! ## What a step comes to -/

/-- The instruction that the next step executes: one is fetched and decoded, and the line that
announces it is accepted. -/
def instruction? (r : Run) : Option Instruction :=
  if r.Fetches then
    match decode r.machine.program.code r.machine.ip with
    | .ok i => (trace? ⟨r.counted, r.sink⟩ fun _ => i.text r.machine.program).map fun _ => i
    | .error _ => none
  else none

theorem instruction?_eq_some_iff :
    r.instruction? = some i ↔ r.Fetches ∧ decode r.machine.program.code r.machine.ip = .ok i ∧
      ∃ s, trace? ⟨r.counted, r.sink⟩ (fun _ => i.text r.machine.program) = some s := by
  unfold instruction?
  by_cases hfetches : r.Fetches
  · rw [if_pos hfetches]
    cases hdecode : decode r.machine.program.code r.machine.ip with
    | error e => exact ⟨nofun, nofun⟩
    | ok j =>
      constructor
      · intro h
        obtain ⟨s, hs, rfl⟩ := Option.map_eq_some_iff.1 h
        exact ⟨hfetches, rfl, s, hs⟩
      · rintro ⟨-, hj, s, hs⟩
        obtain rfl := Except.ok.inj hj
        exact Option.map_eq_some_iff.2 ⟨s, hs, rfl⟩
  · rw [if_neg hfetches]
    exact ⟨nofun, fun h => absurd h.1 hfetches⟩

/-- **What one step comes to.** Before an instruction is executed the run ends at the end of the
code, when the budget is used up, when nothing can be decoded and when a line is refused. After an
instruction it ends when that failed, when a line is refused and when the machine halts; otherwise
it goes on. -/
inductive Steps (r : Run) : Run ⊕ Outcome → Prop
  | atEnd (hnone : r.instruction? = none) : r.Steps (.inr r.finish)
  | exhausted {limit : Nat} (hnone : r.instruction? = none) :
      r.Steps (.inr (r.fail (.stepLimit limit)))
  | undecodable {e : DecodeError} (hnone : r.instruction? = none)
      (hinside : r.machine.ip < r.machine.program.code.size)
      (hdecode : decode r.machine.program.code r.machine.ip = .error e) :
      r.Steps (.inr (fail ⟨r.counted, r.sink⟩ (.undecodable e)))
  | refused (hnone : r.instruction? = none) :
      r.Steps (.inr (fail ⟨r.counted, r.sink⟩ .traceRefused))
  | failed {i : Instruction} {why : Fault} {m : Machine} (sink : Sink)
      (hinstruction : r.instruction? = some i)
      (hrun : Machine.execute i r.counted = .error why m) :
      r.Steps (.inr (fail ⟨m, sink⟩ (.fault i.offset why)))
  | refusedStack {i : Instruction} {flow : Flow} {m : Machine} (sink : Sink)
      (hinstruction : r.instruction? = some i)
      (hrun : Machine.execute i r.counted = .ok flow m) :
      r.Steps (.inr (fail ⟨m, sink⟩ .traceRefused))
  | halted {i : Instruction} {m : Machine} (sink : Sink)
      (hinstruction : r.instruction? = some i)
      (hrun : Machine.execute i r.counted = .ok .halt m) :
      r.Steps (.inr (finish ⟨m, sink⟩))
  | goes {i : Instruction} {flow : Flow} {m : Machine} {x : Nat} (sink : Sink)
      (hinstruction : r.instruction? = some i)
      (hrun : Machine.execute i r.counted = .ok flow m) (hx : flow.destination? i = some x) :
      r.Steps (.inl ⟨{ m with ip := x }, sink⟩)

theorem steps_step (r : Run) : r.Steps r.step := by
  by_cases hinside : r.machine.ip < r.machine.program.code.size
  · cases hused : exhausted? r.machine with
    | some limit =>
      rw [step_of_exhausted hinside hused]
      exact .exhausted (if_neg fun h => Option.some_ne_none limit (hused.symm.trans h.2))
    | none =>
      have hfetches : r.Fetches := ⟨hinside, hused⟩
      cases hdecode : decode r.machine.program.code r.machine.ip with
      | error e =>
        rw [step_of_undecodable hfetches hdecode]
        exact .undecodable (by rw [instruction?, if_pos hfetches, hdecode]) hinside hdecode
      | ok i =>
        rw [step_of_decode hfetches hdecode]
        cases hline : trace? ⟨r.counted, r.sink⟩ fun _ => i.text r.machine.program with
        | none =>
          rw [perform_of_refused hline]
          refine .refused ?_
          rw [instruction?, if_pos hfetches, hdecode]
          exact congrArg (Option.map _) hline
        | some s =>
          have hinstruction := instruction?_eq_some_iff.2 ⟨hfetches, hdecode, s, hline⟩
          have hs : s.machine = r.counted := machine_of_trace? hline
          cases hrun : Machine.execute i s.machine with
          | error why m =>
            rw [perform_of_error hline hrun]
            exact .failed _ hinstruction (hs ▸ hrun)
          | ok flow m =>
            cases hstack : trace? ⟨m, s.sink⟩ fun _ => m.stackLine with
            | none =>
              rw [perform_of_refused_stack hline hrun hstack]
              exact .refusedStack _ hinstruction (hs ▸ hrun)
            | some t =>
              obtain ⟨machine, sink⟩ := t
              obtain rfl : machine = m := machine_of_trace? hstack
              rw [perform_of_ok hline hrun hstack]
              rw [hs] at hrun
              cases flow with
              | next => exact .goes _ hinstruction hrun rfl
              | jump target => exact .goes _ hinstruction hrun rfl
              | halt => exact .halted _ hinstruction hrun
  · rw [step_of_outside hinside]
    exact .atEnd (if_neg fun h => hinside h.1)

/-- **A step after which the run goes on** has executed the instruction where control stood. -/
theorem exists_of_step_inl (h : r.step = .inl s) :
    ∃ i flow m x, decode r.machine.program.code r.machine.ip = .ok i ∧
      Machine.execute i r.counted = .ok flow m ∧ flow.destination? i = some x ∧
      s.machine = { m with ip := x } := by
  have hstep := r.steps_step
  rw [h] at hstep
  cases hstep with
  | goes sink hinstruction hrun hx =>
    exact ⟨_, _, _, _, (instruction?_eq_some_iff.1 hinstruction).2.1, hrun, hx, rfl⟩

/-- **A step with which the run ends** has left the machine as it was, but for the count of steps,
or as the instruction left it that was executed. -/
theorem machine_of_step_inr (h : r.step = .inr o) :
    o.machine = r.machine ∨ o.machine = r.counted ∨
      ∃ i, decode r.machine.program.code r.machine.ip = .ok i ∧
        ((∃ why, Machine.execute i r.counted = .error why o.machine) ∨
          ∃ flow, Machine.execute i r.counted = .ok flow o.machine) := by
  have hstep := r.steps_step
  rw [h] at hstep
  cases hstep with
  | atEnd | exhausted => exact .inl rfl
  | undecodable | refused => exact .inr (.inl rfl)
  | failed sink hinstruction hrun =>
    exact .inr (.inr ⟨_, (instruction?_eq_some_iff.1 hinstruction).2.1, .inl ⟨_, hrun⟩⟩)
  | refusedStack sink hinstruction hrun | halted sink hinstruction hrun =>
    exact .inr (.inr ⟨_, (instruction?_eq_some_iff.1 hinstruction).2.1, .inr ⟨_, hrun⟩⟩)

/-! ## Paths -/

/-- A run gets from one state to another by executing instructions with these opcodes. -/
inductive Executes : Run → List Opcode → Run → Prop
  | refl (r : Run) : Executes r [] r
  | step {r s t : Run} {i : Instruction} {ops : List Opcode}
      (hdecode : decode r.machine.program.code r.machine.ip = .ok i) (hstep : r.step = .inl s)
      (hrest : Executes s ops t) : Executes r (i.opcode :: ops) t

/-- A path has one opcode for each step. -/
theorem Executes.advance {ops : List Opcode} (h : r.Executes ops s) :
    r.advance ops.length = .inl s := by
  induction h with
  | refl r => rfl
  | step hdecode hstep hrest ih =>
    rw [List.length_cons, Run.advance, hstep]
    exact ih

/-- Whatever a run gets to, it gets to by a path. -/
theorem exists_executes {n : Nat} (h : r.advance n = .inl s) :
    ∃ ops, ops.length = n ∧ r.Executes ops s := by
  induction n generalizing r with
  | zero =>
    obtain rfl := Sum.inl.inj h
    exact ⟨[], rfl, .refl r⟩
  | succ n ih =>
    rw [Run.advance] at h
    cases hstep : r.step with
    | inr o =>
      rw [hstep] at h
      contradiction
    | inl q =>
      rw [hstep] at h
      obtain ⟨ops, hlength, hops⟩ := ih h
      obtain ⟨i, -, -, -, hdecode, -⟩ := exists_of_step_inl hstep
      exact ⟨i.opcode :: ops, congrArg _ hlength, .step hdecode hstep hops⟩

/-- The same opcodes lead from one state to one state only. -/
theorem Executes.unique {ops : List Opcode} (hs : r.Executes ops s) (ht : r.Executes ops t) :
    s = t :=
  Sum.inl.inj (hs.advance.symm.trans ht.advance)

/-- One state has one path only of each length. -/
theorem Executes.ops_unique {ops ops' : List Opcode} (h : r.Executes ops s)
    (h' : r.Executes ops' t) (hlength : ops.length = ops'.length) : ops = ops' := by
  induction h generalizing ops' with
  | refl r => exact (List.eq_nil_of_length_eq_zero hlength.symm).symm
  | step hdecode hstep hrest ih =>
    cases h' with
    | refl => contradiction
    | step hdecode' hstep' hrest' =>
      obtain rfl := Except.ok.inj (hdecode.symm.trans hdecode')
      obtain rfl := Sum.inl.inj (hstep.symm.trans hstep')
      exact congrArg _ (ih hrest' (Nat.succ.inj hlength))

theorem Executes.append {ops ops' : List Opcode} (h : r.Executes ops s)
    (h' : s.Executes ops' t) : r.Executes (ops ++ ops') t := by
  induction h with
  | refl r => exact h'
  | step hdecode hstep hrest ih => exact .step hdecode hstep (ih h')

theorem Executes.split {ops ops' : List Opcode} (h : r.Executes (ops ++ ops') t) :
    ∃ s, r.Executes ops s ∧ s.Executes ops' t := by
  induction ops generalizing r with
  | nil => exact ⟨r, .refl r, h⟩
  | cons op ops ih =>
    cases h with
    | step hdecode hstep hrest =>
      obtain ⟨s, hs, ht⟩ := ih hrest
      exact ⟨s, .step hdecode hstep hs, ht⟩

/-- The first step of a path. -/
theorem Executes.uncons {op : Opcode} {ops : List Opcode} (h : r.Executes (op :: ops) t) :
    ∃ s, r.Executes [op] s ∧ s.Executes ops t := by
  cases h with
  | step hdecode hstep hrest => exact ⟨_, .step hdecode hstep (.refl _), hrest⟩

end Run
end StackMachine
