import StackMachine.Command.Respond
import StackMachine.Proofs.Machine.Bounds
import StackMachine.Proofs.Machine.Leads

/-!
# Where a run fails

A run fails before an instruction, when its budget is used up, a line of its trace is refused or
nothing can be decoded, or in an instruction that was decoded (`Run.failure_cases`). The machine
that it leaves still stands where it failed, so the offset of the error is the place of control, and
the instruction that is found there again is the one that failed
(`run_error_names_failed_instruction`).
-/

namespace StackMachine

/-- What cannot be decoded inside the code is an error at its place, and not one of the bounds. -/
theorem offset?_of_decode_error {code : Array UInt8} {x : Nat} {e : DecodeError}
    (hinside : x < code.size) (h : decode code x = .error e) :
    (MachineError.undecodable e).offset? = some x ∧ ∀ y, e ≠ .outOfBounds y := by
  unfold decode at h
  rw [Array.getElem?_eq_getElem hinside] at h
  dsimp only at h
  split at h
  · obtain rfl := Except.error.inj h
    exact ⟨rfl, nofun⟩
  · split at h
    · obtain rfl := Except.error.inj h
      exact ⟨rfl, nofun⟩
    · contradiction

namespace Run

variable {config : Config} {p : Program} {r s : Run} {o : Outcome} {i : Instruction}
  {e : MachineError} {n : Nat}

/-- The run ends in an instruction: one that was decoded where control stood fails as it is
executed. -/
def FailsIn (r : Run) (i : Instruction) (o : Outcome) : Prop :=
  ∃ n s why, r.advance n = .inl s ∧ s.instruction? = some i ∧
    Machine.execute i s.counted = .error why o.machine ∧ o.result = .error (.fault i.offset why)

/-- The instruction that a run executes is the one at the place of control. -/
theorem offset_of_instruction? (h : r.instruction? = some i) :
    i.offset = r.machine.ip ∧ r.machine.ip < r.machine.program.code.size ∧
      decode r.machine.program.code i.offset = .ok i := by
  obtain ⟨hfetches, hdecode, -⟩ := instruction?_eq_some_iff.1 h
  have hoffset := offset_of_decode hdecode
  exact ⟨hoffset, hfetches.1, hoffset ▸ hdecode⟩

/-- An instruction that failed is still where control stands. -/
theorem FailsIn.decode_ip (h : r.FailsIn i o) (hr : r.machine.Bounded config p) :
    i.offset = o.machine.ip ∧ o.machine.ip < p.code.size ∧ decode p.code o.machine.ip = .ok i := by
  obtain ⟨n, s, why, hs, hinstruction, hrun, -⟩ := h
  have hbounded := bounded_advance hr n
  rw [hs] at hbounded
  have hprogram : s.machine.program = p := hbounded.program
  have hip : o.machine.ip = s.machine.ip := (Machine.prepared_of_execute_error hrun).ip
  obtain ⟨hoffset, hinside, hdecode⟩ := offset_of_instruction? hinstruction
  rw [hprogram] at hinside hdecode
  rw [hoffset] at hdecode
  rw [hip]
  exact ⟨hoffset, hinside, hdecode⟩

/-- **How a run fails**: before an instruction, or in one that was decoded. -/
theorem failure_cases (hr : r.machine.Bounded config p) (h : r.advance n = .inr o)
    (he : o.result = .error e) :
    ((∃ limit, e = .stepLimit limit) ∨ e = .traceRefused) ∨
    (∃ d, e = .undecodable d ∧ o.machine.ip < p.code.size ∧
      decode p.code o.machine.ip = .error d) ∨
    ∃ i why, r.FailsIn i o ∧ e = .fault i.offset why := by
  obtain ⟨k, s, hs, hlast⟩ := exists_last_step h
  have hbounded := bounded_advance hr k
  rw [hs] at hbounded
  have hprogram : s.machine.program = p := hbounded.program
  have hstep := s.steps_step
  rw [hlast] at hstep
  cases hstep with
  | atEnd | halted => contradiction
  | exhausted =>
    obtain rfl := Except.error.inj he
    exact .inl (.inl ⟨_, rfl⟩)
  | refused | refusedStack =>
    obtain rfl := Except.error.inj he
    exact .inl (.inr rfl)
  | undecodable hnone hinside hdecode =>
    obtain rfl := Except.error.inj he
    rw [hprogram] at hinside hdecode
    exact .inr (.inl ⟨_, rfl, hinside, hdecode⟩)
  | failed sink hinstruction hrun =>
    obtain rfl := Except.error.inj he
    exact .inr (.inr ⟨_, _, ⟨k, s, _, hs, hinstruction, hrun, rfl⟩, rfl⟩)

end Run

open Command (runtimeFailure)

/-- **The error of a run names the instruction that failed.** It is never one of a file, and never
that an offset is out of bounds. It has an offset unless the budget was used up or a line of the
trace refused. The offset is inside the code, where control stands in the machine that is left;
there an instruction can be decoded unless the error is that none can, and then it is the same
error. The note of the report is there exactly when a decoded instruction failed as it was executed,
and it shows that one. -/
theorem run_error_names_failed_instruction {fuel : Nat} {config : Config} {p : Program}
    {sink : Sink} {o : Outcome} {e : MachineError} (h : runWithin fuel config p sink = some o)
    (he : o.result = .error e) :
    let fails (i : Instruction) := Run.FailsIn ⟨.start config p, sink⟩ i o
    (∀ f, e ≠ .format f) ∧ (∀ x, e ≠ .undecodable (.outOfBounds x)) ∧
    (e.offset? = none ↔ (∃ limit, e = .stepLimit limit) ∨ e = .traceRefused) ∧
    (∀ x, e.offset? = some x → x = o.machine.ip ∧ x < p.code.size ∧
      ∀ d, decode p.code x = .error d ↔ e = .undecodable d) ∧
    (∀ i, fails i → runtimeFailure o.machine.program e =
      { e.diagnostic with notes := e.diagnostic.notes ++ ["at " ++ i.text p] }) ∧
    ((∀ i, ¬fails i) → runtimeFailure o.machine.program e = e.diagnostic) := by
  intro fails
  have hstart := Machine.bounded_start config p
  rw [runWithin_eq_some_iff] at h
  have hprogram : o.machine.program = p := by
    have hbounded := Run.bounded_advance hstart fuel (r := ⟨.start config p, sink⟩)
    rw [h] at hbounded
    exact hbounded.program
  rw [hprogram]
  have hnote (i : Instruction) (hi : fails i) : runtimeFailure p e =
      { e.diagnostic with notes := e.diagnostic.notes ++ ["at " ++ i.text p] } := by
    obtain ⟨hoffset, -, hdecode⟩ := hi.decode_ip hstart
    obtain ⟨n, s, why, -, -, -, hfault⟩ := hi
    obtain rfl := Except.error.inj (he.symm.trans hfault)
    rw [← hoffset] at hdecode
    simp only [runtimeFailure, MachineError.offset?, Option.map_some, hdecode]
  rcases Run.failure_cases hstart h he with hearly | ⟨d, rfl, hinside, hdecode⟩ | ⟨i, why, hi, rfl⟩
  · have hnone : e.offset? = none := by
      rcases hearly with ⟨limit, rfl⟩ | rfl <;> rfl
    refine ⟨?_, ?_, ⟨fun _ => hearly, fun _ => hnone⟩, ?_, hnote, fun _ => ?_⟩
    · rcases hearly with ⟨limit, rfl⟩ | rfl <;> exact nofun
    · rcases hearly with ⟨limit, rfl⟩ | rfl <;> exact nofun
    · rw [hnone]
      exact nofun
    · simp only [runtimeFailure, hnone, Option.map_none]
  · obtain ⟨hoffset, hbounds⟩ := offset?_of_decode_error hinside hdecode
    refine ⟨nofun, fun x hx => hbounds x (MachineError.undecodable.inj hx), ?_, ?_, hnote,
      fun _ => ?_⟩
    · rw [hoffset]
      exact ⟨nofun, by rintro (⟨limit, h⟩ | h) <;> contradiction⟩
    · intro x hx
      obtain rfl := Option.some.inj (hoffset.symm.trans hx)
      refine ⟨rfl, hinside, fun d' => ?_⟩
      rw [hdecode]
      exact ⟨fun h => congrArg _ (Except.error.inj h),
        fun h => congrArg _ (MachineError.undecodable.inj h)⟩
    · simp only [runtimeFailure, hoffset, Option.map_some, hdecode]
  · obtain ⟨hoffset, hinside, hdecode⟩ := hi.decode_ip hstart
    refine ⟨nofun, nofun, ⟨nofun, by rintro (⟨limit, h⟩ | h) <;> contradiction⟩, ?_, hnote,
      fun hnone => absurd hi (hnone i)⟩
    intro x hx
    obtain rfl : i.offset = x := Option.some.inj hx
    refine ⟨hoffset, hoffset ▸ hinside, fun d => ?_⟩
    rw [hoffset, hdecode]
    exact ⟨nofun, nofun⟩

/-- A jump leads into the operand of an instruction, where another one is read and fails. The note
shows its offset in the code and its mnemonic. -/
theorem hidden_instruction_named :
    let p : Program := { code := #[0x20, 10, 0, 0, 0, 0, 0, 0, 0, 0x03, 0x30] }
    let e : MachineError := .fault 10 (.typeMismatch .neg "nil")
    ∃ o, runWithin 2 {} p {} = some o ∧ o.result = .error e ∧ 10 = o.machine.ip ∧
      runtimeFailure o.machine.program e =
        { e.diagnostic with notes := ["at 000a  NEG"] } := by
  intro p e
  let landed : Machine := { Machine.start {} p with ip := 10, steps := 1 }
  let left : Machine := { landed with stack := #[], steps := 2, pristine := false }
  have hdecode : decode p.code 0 = .ok ⟨0, .jump, .u64 10⟩ := by decide +kernel
  have hfirst : Run.step ⟨.start {} p, {}⟩ = .inl ⟨landed, {}⟩ := by
    rw [Run.step_of_decode ⟨by decide, rfl⟩ hdecode]
    rfl
  have hsecond : Run.step ⟨landed, {}⟩ = .inr ⟨left, {}, .error e⟩ := rfl
  have hinstruction : Run.instruction? ⟨landed, {}⟩ = some ⟨10, .neg, .none⟩ := rfl
  have ho : runWithin 2 {} p {} = some ⟨left, {}, .error e⟩ := by
    rw [runWithin_eq_some_iff, Run.advance_of_step_inl hfirst]
    exact Run.advance_of_step_inr hsecond 0
  obtain ⟨-, -, -, hplace, hnote, -⟩ := run_error_names_failed_instruction ho rfl
  have hreached : Run.advance ⟨.start {} p, {}⟩ 1 = .inl ⟨landed, {}⟩ :=
    Run.advance_of_step_inl hfirst 0
  have hnamed := hnote _ ⟨1, _, _, hreached, hinstruction, rfl, rfl⟩
  have htext : Instruction.text ⟨10, .neg, .none⟩ p = "000a  NEG" := by decide +kernel
  rw [htext] at hnamed
  exact ⟨_, ho, rfl, (hplace 10 rfl).1, hnamed⟩

end StackMachine
