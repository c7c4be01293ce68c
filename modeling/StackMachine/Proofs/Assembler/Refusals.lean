import StackMachine.Proofs.Assembler.Refinement
import StackMachine.Proofs.Assembly.Patching

/-!
# Calls that are refused

A call that fails leaves no trace as long as there is room in the pool: without the calls that
failed, a sequence of calls gives the same answers at the same positions and ends in the same state
(`failed_calls_leave_no_trace`).

A label is known by its number alone. So a label of another assembler is refused only until as many
labels were created here; from then on it is taken for the label of its number
(`foreign_label_refused_iff`).
-/

namespace StackMachine

/-- The label that a step uses: it is placed, a site of it is noted, or it is the operand of an
instruction that takes an address. -/
def AssemblyStep.used? : AssemblyStep → Option Label
  | .placeLabel l | .referTo l => some l
  | .emitJump op l => if op.shape = .u64 then some l else none
  | _ => none

namespace Assembler

variable {s : Assembler} {steps : List AssemblyStep} {step : AssemblyStep} {e : AssemblyError}
  {l : Label}

/-! ## Without the calls that failed -/

/-- The calls that succeeded. -/
def succeeded (calls : List Call) : List Call := calls.filter fun c => c.answer.isOk

theorem succeeded_cons_of_ok {c : Call} {reply : AssemblyReply} (h : c.answer = .ok reply)
    (calls : List Call) : succeeded (c :: calls) = c :: succeeded calls :=
  List.filter_cons_of_pos (by rw [h]; rfl)

theorem succeeded_cons_of_error {c : Call} (h : c.answer = .error e) (calls : List Call) :
    succeeded (c :: calls) = succeeded calls :=
  List.filter_cons_of_neg (by rw [h]; exact Bool.false_ne_true)

/-- **A call that fails changes nothing**, unless the pool is full. -/
theorem after_of_answer_error (h : s.Ordered) (hroom : s.strings.size < UInt32.size)
    (hanswer : s.answer step = .error e) : s.after step = s := by
  cases call_cases h step with
  | done hcall =>
    rw [answer_of_ok hcall] at hanswer
    contradiction
  | refused hcall => exact after_of_error hcall
  | full hfull => exact absurd hfull (Nat.not_le.2 hroom)

/-- A text for a full pool leaves the opcode before it in the code. -/
theorem code_after_of_full (hfull : UInt32.size ≤ s.strings.size) (text : String) :
    (s.after (.emitWith .pushString (.text text))).code = s.code ++ [Opcode.pushString.code] := by
  have hoperand :=
    (operand_eq (.text text) { s with code := s.code ++ [Opcode.pushString.code] }).trans
      (if_pos ⟨rfl, hfull⟩)
  have hshape : (Immediate.text text).shape = Opcode.pushString.shape := rfl
  have hcall := (addWith_of_shape hshape s).trans (bind_of_error hoperand)
  rw [after_of_error (bind_of_error hcall)]

/-- **The calls that succeeded** are seen as before when they are alone. -/
theorem transcript_succeeded (h : s.Ordered)
    (hroom : (s.afterAll steps).strings.size < UInt32.size) :
    s.transcript ((succeeded (s.transcript steps)).map Call.step) =
        succeeded (s.transcript steps) ∧
      s.afterAll ((succeeded (s.transcript steps)).map Call.step) = s.afterAll steps := by
  induction steps generalizing s with
  | nil => exact ⟨rfl, rfl⟩
  | cons step steps ih =>
    obtain ⟨htranscript, hafter⟩ := ih (h.after step) hroom
    cases hanswer : s.answer step with
    | ok reply =>
      rw [transcript, succeeded_cons_of_ok hanswer]
      exact ⟨congrArg _ htranscript, hafter⟩
    | error e =>
      have hunchanged := after_of_answer_error h
        ((size_strings_le_afterAll h (step :: steps)).trans_lt hroom) hanswer
      rw [transcript, succeeded_cons_of_error hanswer, afterAll_cons]
      rw [hunchanged] at htranscript hafter ⊢
      exact ⟨htranscript, hafter⟩

/-- **Failed calls leave no trace.** When the calls that failed are left out of a sequence, the
others give the same answers, with the same position after each, and they end in the same state,
which is finished to the same program or the same error. It is enough that the pool has room for one
more text at the end. -/
theorem failed_calls_leave_no_trace (steps : List AssemblyStep)
    (hroom : (afterAll {} steps).strings.size < UInt32.size) :
    let kept := succeeded (transcript {} steps)
    transcript {} (kept.map Call.step) = kept ∧
      afterAll {} (kept.map Call.step) = afterAll {} steps ∧
      (afterAll {} (kept.map Call.step)).finish = (afterAll {} steps).finish := by
  obtain ⟨htranscript, hafter⟩ := transcript_succeeded ordered_empty hroom
  exact ⟨htranscript, hafter, congrArg finish hafter⟩

/-- Without three calls that fail, a label and the instruction that jumps to it stay the same. -/
theorem label_kept_without_failed_calls :
    let steps : List AssemblyStep := [.newLabel none, .exitScope, .emitJump .jump ⟨0⟩,
      .placeLabel ⟨1⟩, .placeLabel ⟨0⟩, .emitWith .pushString (.u8 7),
      .emitWith .pushString (.text "x")]
    let kept := succeeded (transcript {} steps)
    kept.map Call.step = [.newLabel none, .emitJump .jump ⟨0⟩, .placeLabel ⟨0⟩,
      .emitWith .pushString (.text "x")] ∧
    transcript {} (kept.map Call.step) = kept ∧
      afterAll {} (kept.map Call.step) = afterAll {} steps ∧
      (afterAll {} (kept.map Call.step)).finish = (afterAll {} steps).finish := by
  refine ⟨by decide +kernel, failed_calls_leave_no_trace _ (by decide +kernel)⟩

/-! ## Labels of another assembler -/

/-- **A label whose number was given out** is accepted. -/
theorem answer_of_used_lt (hused : step.used? = some l) (h : l.index < s.labels.size) :
    s.answer step = .ok .done := by
  cases step with
  | placeLabel label =>
    obtain rfl := Option.some.inj hused
    exact answer_of_ok (bind_of_ok (updateSlot_of_lt h _))
  | referTo label =>
    obtain rfl := Option.some.inj hused
    exact answer_of_ok (bind_of_ok (addLabel_of_lt h))
  | emitJump op label =>
    obtain ⟨hshape, hlabel⟩ := Option.ite_none_right_eq_some.1 hused
    obtain rfl := Option.some.inj hlabel
    exact answer_of_ok (bind_of_ok (addJump_of_lt hshape h))
  | _ => contradiction

/-- **A label whose number was not given out** is refused, and nothing changes. -/
theorem call_of_used_not_lt (hused : step.used? = some l) (h : ¬l.index < s.labels.size) :
    call step s = .error (.foreignLabel l) s := by
  cases step with
  | placeLabel label =>
    obtain rfl := Option.some.inj hused
    exact bind_of_error (updateSlot_of_not_lt h _)
  | referTo label =>
    obtain rfl := Option.some.inj hused
    exact bind_of_error (addLabel_of_not_lt h)
  | emitJump op label =>
    obtain ⟨hshape, hlabel⟩ := Option.ite_none_right_eq_some.1 hused
    obtain rfl := Option.some.inj hlabel
    exact bind_of_error (addJump_of_not_lt hshape h)
  | _ => contradiction

/-- Only creating a label makes one more. -/
theorem size_labels_after (h : s.Ordered) (step : AssemblyStep) :
    (s.after step).labels.size = s.labels.size + (createdNames [step]).length := by
  have hnone {e : AssemblyError} (hstep : s.assembly.perform step = .error e) :
      createdNames [step] = [] := by
    -- Creating a label does not fail.
    cases step with
    | newLabel name => contradiction
    | _ => rfl
  cases call_cases h step with
  | @done reply t hcall hstep =>
    have hnames := congrArg List.length (Assembly.names_perform hstep)
    rw [List.length_append] at hnames
    have hcreated : createdNames [step] = step.created?.toList := by
      cases step <;> rfl
    rw [after_of_ok hcall, hcreated]
    simpa [Assembly.names, assembly] using hnames
  | refused hcall hstep => rw [after_of_error hcall, hnone hstep, List.length_nil, Nat.add_zero]
  | full _ hcall hstep => rw [after_of_error hcall, hnone hstep, List.length_nil, Nat.add_zero]

theorem size_labels_afterAll (steps : List AssemblyStep) :
    (afterAll {} steps).labels.size = (createdNames steps).length := by
  induction steps using List.reverseRecOn with
  | nil => rfl
  | append_singleton steps step ih =>
    rw [afterAll_append, createdNames, List.filterMap_append, List.length_append]
    exact (size_labels_after (ordered_afterAll steps) step).trans (congrArg (· + _) ih)

/-- A label was created and given out by one of the calls. -/
def GivenOut (steps : List AssemblyStep) (l : Label) : Prop :=
  ∃ before name rest, steps = before ++ .newLabel name :: rest ∧
    (afterAll {} before).answer (.newLabel name) = .ok (.label l)

/-- A label is given out by its number, which counts the labels created before. -/
theorem answer_newLabel (steps : List AssemblyStep) (name : Option String) :
    (afterAll {} steps).answer (.newLabel name) = .ok (.label ⟨(createdNames steps).length⟩) := by
  rw [← size_labels_afterAll]
  rfl

/-- **The labels that were given out** are those of the numbers up to how many were created. -/
theorem givenOut_iff : GivenOut steps l ↔ l.index < (createdNames steps).length := by
  constructor
  · rintro ⟨before, name, rest, rfl, hanswer⟩
    rw [answer_newLabel] at hanswer
    obtain rfl := AssemblyReply.label.inj (Except.ok.inj hanswer)
    simp [createdNames, AssemblyStep.created?]
  · intro hlabel
    -- The call that made the label is the last one, or it is found before it.
    induction steps using List.reverseRecOn with
    | nil => exact absurd hlabel (Nat.not_lt_zero _)
    | append_singleton steps step ih =>
      by_cases hbefore : l.index < (createdNames steps).length
      · obtain ⟨before, name, rest, rfl, hanswer⟩ := ih hbefore
        exact ⟨before, name, rest ++ [step], by simp, hanswer⟩
      · rw [createdNames, List.filterMap_append, List.length_append] at hlabel
        cases step with
        | newLabel name =>
          have hlast : l.index = (createdNames steps).length :=
            Nat.le_antisymm (Nat.le_of_lt_succ hlabel) (Nat.not_lt.1 hbefore)
          refine ⟨steps, name, [], rfl, ?_⟩
          rw [answer_newLabel, ← hlast]
        | _ => exact absurd hlabel hbefore

/-- **A label of another assembler is refused** only as long as no label of its number was given out
here. For any two histories of calls, and the label that is created next after the first one:

* after the second history, a label of this number was given out exactly when more labels were
  created in it than in the first one;
* a call that uses the label is refused as foreign, and nothing changes, exactly when none was;
* it is accepted exactly when one was, as if the label belonged here. -/
theorem foreign_label_refused_iff (theirs ours : List AssemblyStep) (name : Option String) :
    ∃ l, (afterAll {} theirs).answer (.newLabel name) = .ok (.label l) ∧
      (GivenOut ours l ↔ (createdNames theirs).length < (createdNames ours).length) ∧
      ∀ step : AssemblyStep, step.used? = some l →
        ((afterAll {} ours).answer step = .error (.foreignLabel l) ∧
            (afterAll {} ours).after step = afterAll {} ours ↔ ¬GivenOut ours l) ∧
        ((afterAll {} ours).answer step = .ok .done ↔ GivenOut ours l) := by
  refine ⟨_, answer_newLabel theirs name, givenOut_iff, fun step hused => ?_⟩
  rw [givenOut_iff, ← size_labels_afterAll ours]
  by_cases hlabel : (createdNames theirs).length < (afterAll {} ours).labels.size
  · have hanswer := answer_of_used_lt hused hlabel
    rw [hanswer]
    exact ⟨⟨nofun, fun h => absurd hlabel h⟩, fun _ => hlabel, fun _ => rfl⟩
  · have hcall := call_of_used_not_lt hused hlabel
    rw [answer_of_error hcall, after_of_error hcall]
    exact ⟨⟨fun _ => hlabel, fun _ => ⟨rfl, rfl⟩⟩, nofun, fun h => absurd h hlabel⟩

/-- The first label of one assembler is placed in another one that has created a label of its own,
and refused in one that has not. -/
theorem foreign_label_placed :
    ((afterAll {} []).answer (.newLabel none) = .ok (.label ⟨0⟩)) ∧
      (afterAll {} []).answer (.placeLabel ⟨0⟩) = .error (.foreignLabel ⟨0⟩) ∧
      (afterAll {} [.newLabel none]).answer (.placeLabel ⟨0⟩) = .ok .done := by
  obtain ⟨l, hl, -, hrefused⟩ := foreign_label_refused_iff [] [] none
  obtain ⟨k, hk, hgiven, haccepted⟩ := foreign_label_refused_iff [] [.newLabel none] none
  obtain rfl : ⟨0⟩ = l := AssemblyReply.label.inj (Except.ok.inj hl)
  obtain rfl : ⟨0⟩ = k := AssemblyReply.label.inj (Except.ok.inj hk)
  have hnone : ¬GivenOut [] ⟨0⟩ := fun h => absurd (givenOut_iff.1 h) (Nat.not_lt_zero 0)
  exact ⟨hl, ((hrefused (.placeLabel ⟨0⟩) rfl).1.2 hnone).1,
    (haccepted (.placeLabel ⟨0⟩) rfl).2.2 (hgiven.2 Nat.zero_lt_one)⟩

end Assembler
end StackMachine
