import StackMachine.Assembly.Assembler
import StackMachine.Proofs.Assembly.Pool

/-!
# Calls and steps

An assembler that is changed in place does what the steps of assembling say. A state shows an
assembly (`Assembler.assembly`), in which the variables are nested by the places where scopes begin.
A call that succeeds gives the answer of its step and shows the assembly after it; a call that fails
gives the error of its step and leaves the state as it was (`Assembler.call_cases`). The one
exception is a text for a full pool: the opcode before it has been written by then.
-/

namespace StackMachine

/-! ## Scopes by the places where they begin -/

namespace Scopes

variable {vs : List Variable} {bases : List Nat}

/-- The scopes that begin at some places, innermost first, among variables that are given oldest
first. -/
def ofBases (vs : List Variable) : List Nat → Scopes
  | [] => { outer := vs.reverse }
  | base :: bases =>
    let around := ofBases (vs.take base) bases
    { around with inner := (vs.drop base).reverse :: around.inner }

@[simp] theorem visible_ofBases (vs : List Variable) (bases : List Nat) :
    (ofBases vs bases).visible = vs.reverse := by
  induction bases generalizing vs with
  | nil => rfl
  | cons base bases ih =>
    have haround := ih (vs.take base)
    rw [visible] at haround
    rw [ofBases, visible, List.flatten_cons, List.append_assoc, haround, ← List.reverse_append,
      List.take_append_drop]

/-- The innermost scope goes from its base to the end. -/
theorem innermost_ofBases (vs : List Variable) (bases : List Nat) :
    (ofBases vs bases).innermost = (vs.drop (bases.headD 0)).reverse := by
  cases bases <;> rfl

theorem ofBases_enter (vs : List Variable) (bases : List Nat) :
    ofBases vs (vs.length :: bases) = (ofBases vs bases).enter := by
  rw [ofBases, List.take_length, List.drop_length]
  rfl

theorem ofBases_push (hbase : bases.headD 0 ≤ vs.length) (v : Variable) :
    ofBases (vs ++ [v]) bases = (ofBases vs bases).push v := by
  cases bases with
  | nil => simp [ofBases, push]
  | cons base bases =>
    have hle : base ≤ vs.length := hbase
    rw [ofBases, List.take_append_of_le_length hle, List.drop_append_of_le_length hle,
      List.reverse_append]
    rfl

/-- The newest declaration of a name is the last one among variables that are numbered in order. -/
theorem resolveIn_reverse (name : String) (vs : List Variable) :
    resolveIn name vs.reverse =
      (vs.zipIdx.reverse.find? fun v => v.1.name == name).map
        fun v => ⟨v.2, v.1.isMutable⟩ := by
  induction vs using List.reverseRecOn with
  | nil => rfl
  | append_singleton older v ih =>
    rw [List.zipIdx_append, List.zipIdx_singleton, List.reverse_append, List.reverse_append,
      List.reverse_singleton, List.reverse_singleton, List.singleton_append, List.singleton_append,
      resolveIn, List.find?_cons]
    by_cases hname : v.name = name
    · simp [hname]
    · simp [hname, ih, beq_false_of_ne hname]

end Scopes

/-! ## The assembly that a state shows -/

namespace Assembler

variable {s : Assembler}

/-- The assembly that a state shows. -/
def assembly (s : Assembler) : Assembly where
  code := s.code
  strings := s.strings
  labels := s.labels
  scopes := .ofBases s.visible.toList s.bases

/-- No scope begins after one inside it, and none after the last variable. -/
def Ordered (s : Assembler) : Prop := (s.visible.size :: s.bases).Pairwise (· ≥ ·)

theorem Ordered.base_le (h : s.Ordered) : s.base ≤ s.visible.size := by
  rw [base]
  cases hbases : s.bases with
  | nil => exact Nat.zero_le _
  | cons base bases =>
    rw [Ordered, hbases] at h
    exact List.rel_of_pairwise_cons h List.mem_cons_self

theorem finish_assembly (s : Assembler) : s.assembly.finish = s.finish := rfl

/-- What a call does, beside what its step does to the assembly that the state shows. -/
inductive CallCases (s : Assembler) (step : AssemblyStep) : Prop
  /-- Both succeed with one answer. -/
  | done {reply : AssemblyReply} {t : Assembler} (hcall : call step s = .ok reply t)
      (hstep : s.assembly.perform step = .ok (reply, t.assembly)) (hordered : t.Ordered)
  /-- Both fail with one error, and nothing has changed. -/
  | refused {e : AssemblyError} (hcall : call step s = .error e s)
      (hstep : s.assembly.perform step = .error e)
  /-- The pool is full, and there is more code than before. -/
  | full {code : Array UInt8} (hfull : UInt32.size ≤ s.strings.size)
      (hcall : call step s = .error .poolFull { s with code })
      (hstep : s.assembly.perform step = .error .poolFull)

/-! ## Emitting -/

/-- Bytes that are written one after another are written at once. -/
theorem append_cons (code : Array UInt8) (byte : UInt8) (bytes : List UInt8) :
    code ++ [byte] ++ bytes = code ++ (byte :: bytes) :=
  Array.ext' (by simp)

theorem add_of_none {op : Opcode} (h : op.shape = .none) (s : Assembler) :
    add op s = .ok () { s with code := s.code ++ [op.code] } := by
  rw [add, if_pos h]
  rfl

theorem callCases_emit (h : s.Ordered) (op : Opcode) : CallCases s (.emit op) := by
  by_cases hop : op.shape = .none
  · refine .done (bind_of_ok (add_of_none hop s)) ?_ h
    rw [Assembly.perform, Assembly.emit, if_pos hop]
    rfl
  · refine .refused (e := .invalidOperand op (.operand .none)) (bind_of_error ?_) ?_
    · rw [add, if_neg hop]
      rfl
    · rw [Assembly.perform, Assembly.emit, if_neg hop]
      rfl

/-- A text needs room in the pool, other immediates do not. -/
theorem operand_eq (imm : Immediate) (s : Assembler) :
    operand imm s =
      if imm.shape = .string ∧ UInt32.size ≤ s.strings.size then .error .poolFull s
      else .ok (imm.argument s.strings.size) { s with strings := s.strings ++ imm.pooled } := by
  cases imm with
  | text text =>
    by_cases hroom : s.strings.size < UInt32.size
    · rw [if_neg fun hfull => Nat.not_le.2 hroom hfull.2]
      exact bind_of_ok (if_pos hroom)
    · rw [if_pos ⟨rfl, Nat.not_lt.1 hroom⟩]
      exact bind_of_error (if_neg hroom)
  | _ => rfl

/-- An operand of the right shape is made after its opcode was written. -/
theorem addWith_of_shape {op : Opcode} {imm : Immediate} (h : imm.shape = op.shape)
    (s : Assembler) :
    addWith op imm s =
      (operand imm >>= fun arg => write arg.bytes) { s with code := s.code ++ [op.code] } := by
  rw [addWith, if_neg (not_not_intro h)]
  rfl

theorem callCases_emitWith (h : s.Ordered) (op : Opcode) (imm : Immediate) :
    CallCases s (.emitWith op imm) := by
  by_cases hshape : imm.shape = op.shape
  · have hcall := addWith_of_shape hshape s
    have hoperand := operand_eq imm { s with code := s.code ++ [op.code] }
    have hstep : s.assembly.perform (.emitWith op imm) = _ :=
      congrArg (Except.map _) (Assembly.emitWith_eq hshape)
    by_cases hfull : imm.shape = .string ∧ UInt32.size ≤ s.strings.size
    · have hrefused := bind_of_error (f := fun arg => write arg.bytes)
        (hoperand.trans (if_pos hfull))
      exact .full hfull.2 (bind_of_error (hcall.trans hrefused))
        (hstep.trans (congrArg _ (if_pos hfull)))
    · have hwritten := bind_of_ok (f := fun arg => write arg.bytes)
        (hoperand.trans (if_neg hfull))
      refine .done (bind_of_ok (hcall.trans hwritten))
        ((hstep.trans (congrArg _ (if_neg hfull))).trans ?_) h
      exact congrArg (fun code => Except.ok (AssemblyReply.done,
        { s.assembly with code, strings := s.strings ++ imm.pooled })) (append_cons _ _ _).symm
  · refine .refused (e := .invalidOperand op (.operand imm.shape)) (bind_of_error ?_) ?_
    · rw [addWith, if_pos hshape]
      rfl
    · simp only [Assembly.perform, Assembly.emitWith, if_pos hshape]
      rfl

/-! ## Labels -/

theorem knows_assembly_iff {label : Label} :
    s.assembly.knows label = true ↔ label.index < s.labels.size := decide_eq_true_iff

/-- **A label of the assembler**: its slot is changed. -/
theorem updateSlot_of_lt {label : Label} (h : label.index < s.labels.size)
    (f : LabelSlot → LabelSlot) :
    updateSlot label f s = .ok () { s with labels := s.labels.modify label.index f } := if_pos h

/-- **A foreign label** is refused. -/
theorem updateSlot_of_not_lt {label : Label} (h : ¬label.index < s.labels.size)
    (f : LabelSlot → LabelSlot) : updateSlot label f s = .error (.foreignLabel label) s := if_neg h

theorem callCases_placeLabel (h : s.Ordered) (label : Label) : CallCases s (.placeLabel label) := by
  by_cases hlabel : label.index < s.labels.size
  · refine .done (bind_of_ok (updateSlot_of_lt hlabel _)) ?_ h
    rw [Assembly.perform, Assembly.placeLabel, if_pos (knows_assembly_iff.2 hlabel)]
    rfl
  · refine .refused (bind_of_error (updateSlot_of_not_lt hlabel _)) ?_
    rw [Assembly.perform, Assembly.placeLabel, if_neg (mt knows_assembly_iff.1 hlabel)]
    rfl

theorem addLabel_of_lt {label : Label} (h : label.index < s.labels.size) :
    addLabel label s = .ok () { s with
      code := s.code ++ Assembly.placeholder
      labels := s.labels.modify label.index fun slot =>
        { slot with sites := s.position :: slot.sites } } :=
  bind_of_ok (updateSlot_of_lt h _)

theorem addLabel_of_not_lt {label : Label} (h : ¬label.index < s.labels.size) :
    addLabel label s = .error (.foreignLabel label) s :=
  (bind_of_ok (x := get) (a := s) (t := s) rfl).trans (bind_of_error (updateSlot_of_not_lt h _))

theorem callCases_referTo (h : s.Ordered) (label : Label) : CallCases s (.referTo label) := by
  by_cases hlabel : label.index < s.labels.size
  · refine .done (bind_of_ok (addLabel_of_lt hlabel)) ?_ h
    rw [Assembly.perform, Assembly.referTo, if_pos (knows_assembly_iff.2 hlabel)]
    rfl
  · refine .refused (bind_of_error (addLabel_of_not_lt hlabel)) ?_
    rw [Assembly.perform, Assembly.referTo, if_neg (mt knows_assembly_iff.1 hlabel)]
    rfl

/-- The label is found, and found again after the opcode was written. -/
theorem addJump_of_lt {op : Opcode} {label : Label} (hshape : op.shape = .u64)
    (h : label.index < s.labels.size) :
    addJump op label s = .ok () { s with
      code := s.code ++ [op.code] ++ Assembly.placeholder
      labels := s.labels.modify label.index fun slot =>
        { slot with sites := (s.code ++ [op.code]).size :: slot.sites } } := by
  have hfound : updateSlot label id s = .ok () s := by
    rw [updateSlot_of_lt h, modify_id]
  have hwritten : write [op.code] s = .ok () { s with code := s.code ++ [op.code] } := rfl
  rw [addJump, if_neg (not_not_intro hshape), bind_of_ok hfound, bind_of_ok hwritten]
  exact addLabel_of_lt h

/-- A foreign label is refused before the opcode is written. -/
theorem addJump_of_not_lt {op : Opcode} {label : Label} (hshape : op.shape = .u64)
    (h : ¬label.index < s.labels.size) :
    addJump op label s = .error (.foreignLabel label) s := by
  rw [addJump, if_neg (not_not_intro hshape)]
  exact bind_of_error (updateSlot_of_not_lt h id)

theorem callCases_emitJump (h : s.Ordered) (op : Opcode) (label : Label) :
    CallCases s (.emitJump op label) := by
  by_cases hshape : op.shape = .u64
  · by_cases hlabel : label.index < s.labels.size
    · refine .done (bind_of_ok (addJump_of_lt hshape hlabel)) ?_ h
      rw [Assembly.perform, Assembly.emitJump, if_neg (not_not_intro hshape),
        if_pos (knows_assembly_iff.2 hlabel), Assembly.referTo]
      exact congrArg _ (if_pos (knows_assembly_iff.2 hlabel))
    · refine .refused (bind_of_error (addJump_of_not_lt hshape hlabel)) ?_
      rw [Assembly.perform, Assembly.emitJump, if_neg (not_not_intro hshape),
        if_neg (mt knows_assembly_iff.1 hlabel)]
      rfl
  · refine .refused (e := .invalidOperand op .label) (bind_of_error ?_) ?_
    · rw [addJump, if_pos hshape]
      rfl
    · rw [Assembly.perform, Assembly.emitJump, if_pos hshape]
      rfl

/-! ## Scopes and variables -/

theorem callCases_enterScope (h : s.Ordered) : CallCases s .enterScope := by
  have hscopes := Scopes.ofBases_enter s.visible.toList s.bases
  rw [Array.length_toList] at hscopes
  refine .done (t := { s with
    code := s.code ++ [Opcode.enterScope.code], bases := s.visible.size :: s.bases }) rfl ?_
    (List.pairwise_cons.2 ⟨?_, h⟩)
  · exact congrArg (fun scopes => Except.ok (AssemblyReply.done,
      { s.assembly.append [Opcode.enterScope.code] with scopes })) hscopes.symm
  · rintro base (_ | ⟨_, hmem⟩)
    · exact le_rfl
    · exact List.rel_of_pairwise_cons h hmem

theorem callCases_exitScope (h : s.Ordered) : CallCases s .exitScope := by
  obtain ⟨code, strings, labels, visible, bases⟩ := s
  cases bases with
  | nil => exact .refused rfl rfl
  | cons base bases =>
    obtain ⟨hvisible, hbases⟩ := List.pairwise_cons.1 h
    have hscopes : Scopes.ofBases (visible.shrink base).toList bases =
        Scopes.ofBases (visible.toList.take base) bases := by
      rw [Array.toList_shrink]
    refine .done
      (t := ⟨code ++ [Opcode.leaveScope.code], strings, labels, visible.shrink base, bases⟩)
      rfl ?_ (List.pairwise_cons.2 ⟨fun b hb => ?_, hbases.tail⟩)
    · exact congrArg (fun scopes => Except.ok (AssemblyReply.done,
        (⟨code ++ [Opcode.leaveScope.code], strings, labels, scopes⟩ : Assembly))) hscopes.symm
    · have hinside := List.rel_of_pairwise_cons hbases hb
      rw [Array.size_shrink]
      exact Nat.le_min.2 ⟨hinside, le_trans hinside (hvisible base List.mem_cons_self)⟩

/-- The slice of the variables from the innermost base on is the innermost scope. -/
theorem any_extract_base (s : Assembler) (name : String) :
    ((s.visible.extract s.base s.visible.size).any fun v => v.name == name) =
      s.assembly.scopes.declares name := by
  have hslice :
      (s.visible.extract s.base s.visible.size).toList = s.visible.toList.drop s.base := by
    rw [Array.toList_extract, List.extract_eq_take_drop, ← Array.length_toList, ← List.length_drop,
      List.take_length]
  rw [← Array.any_toList, hslice, Scopes.declares, assembly, Scopes.innermost_ofBases,
    List.any_reverse]
  rfl

theorem callCases_declare (h : s.Ordered) (name : String) (isMutable : Bool) :
    CallCases s (.declare name isMutable) := by
  by_cases hname : s.assembly.scopes.declares name = true
  · refine .refused (e := .duplicateName name) (bind_of_error ?_) ?_
    · rw [declare, any_extract_base, if_pos hname]
    · rw [Assembly.perform, Assembly.declare, if_pos hname]
      rfl
  · have hcall : declare name isMutable s =
        .ok s.visible.size { s with visible := s.visible.push ⟨name, isMutable⟩ } := by
      rw [declare, any_extract_base, if_neg hname]
    have hindex : s.assembly.scopes.visible.length = s.visible.size := by
      rw [assembly, Scopes.visible_ofBases, List.length_reverse, Array.length_toList]
    have hscopes : Scopes.ofBases (s.visible.push ⟨name, isMutable⟩).toList s.bases =
        s.assembly.scopes.push ⟨name, isMutable⟩ := by
      rw [Array.toList_push]
      exact Scopes.ofBases_push (by rw [Array.length_toList]; exact h.base_le) _
    refine .done (bind_of_ok hcall) ?_ ?_
    · rw [Assembly.perform, Assembly.declare, if_neg hname, hindex, ← hscopes]
      rfl
    · obtain ⟨hvisible, hbases⟩ := List.pairwise_cons.1 h
      refine List.pairwise_cons.2 ⟨fun base hbase => ?_, hbases⟩
      rw [Array.size_push]
      exact Nat.le_succ_of_le (hvisible base hbase)

/-- A name stands for the same in the assembly. -/
theorem resolve?_assembly (s : Assembler) (name : String) :
    s.assembly.scopes.resolve? name =
      (s.visible.toList.zipIdx.reverse.find? fun v => v.1.name == name).map
        fun v => ⟨v.2, v.1.isMutable⟩ := by
  rw [Scopes.resolve?, assembly, Scopes.visible_ofBases, Scopes.resolveIn_reverse]

theorem callCases_resolve (h : s.Ordered) (name : String) : CallCases s (.resolve name) := by
  have hresolve := resolve?_assembly s name
  cases hfound : s.visible.toList.zipIdx.reverse.find? fun v => v.1.name == name with
  | none =>
    rw [hfound] at hresolve
    refine .refused (e := .unknownName name) (bind_of_error ?_) ?_
    · rw [resolve, hfound]
    · rw [Assembly.perform, Assembly.resolve, hresolve]
      rfl
  | some v =>
    rw [hfound] at hresolve
    refine .done (t := s) (bind_of_ok (a := ⟨v.2, v.1.isMutable⟩) ?_) ?_ h
    · rw [resolve, hfound]
    · rw [Assembly.perform, Assembly.resolve, hresolve]
      rfl

/-- **A call does what its step says**, or the pool is full. -/
theorem call_cases (h : s.Ordered) (step : AssemblyStep) : CallCases s step := by
  cases step with
  | emit op => exact callCases_emit h op
  | emitWith op imm => exact callCases_emitWith h op imm
  | newLabel name => exact .done (t := { s with labels := s.labels.push { name } }) rfl rfl h
  | placeLabel label => exact callCases_placeLabel h label
  | referTo label => exact callCases_referTo h label
  | emitJump op label => exact callCases_emitJump h op label
  | enterScope => exact callCases_enterScope h
  | exitScope => exact callCases_exitScope h
  | declare name isMutable => exact callCases_declare h name isMutable
  | resolve name => exact callCases_resolve h name

/-! ## Answers and states -/

/-- **A call answers as its step does.** -/
theorem answer_eq (h : s.Ordered) (step : AssemblyStep) :
    s.answer step = (s.assembly.perform step).map Prod.fst := by
  cases call_cases h step with
  | done hcall hstep => rw [answer_of_ok hcall, hstep]; rfl
  | refused hcall hstep => rw [answer_of_error hcall, hstep]; rfl
  | full _ hcall hstep => rw [answer_of_error hcall, hstep]; rfl

theorem Ordered.after (h : s.Ordered) (step : AssemblyStep) : (s.after step).Ordered := by
  cases call_cases h step with
  | done hcall _ hordered => rwa [after_of_ok hcall]
  | refused hcall => rwa [after_of_error hcall]
  | full _ hcall =>
    rw [after_of_error hcall]
    exact h

theorem Ordered.afterAll (h : s.Ordered) (steps : List AssemblyStep) :
    (s.afterAll steps).Ordered := by
  induction steps generalizing s with
  | nil => exact h
  | cons step steps ih => exact ih (h.after step)

theorem ordered_empty : Ordered {} := List.pairwise_singleton _ _

/-- **Every state that is reached** has its scopes in order. -/
theorem ordered_afterAll (steps : List AssemblyStep) : (Assembler.afterAll {} steps).Ordered :=
  ordered_empty.afterAll steps

/-- The pool only grows. -/
theorem size_strings_le_after (h : s.Ordered) (step : AssemblyStep) :
    s.strings.size ≤ (s.after step).strings.size := by
  cases call_cases h step with
  | done hcall hstep =>
    have hstrings := congrArg Array.size (Assembly.strings_perform hstep)
    rw [Array.size_append] at hstrings
    rw [after_of_ok hcall]
    exact Nat.le.intro hstrings.symm
  | refused hcall => rw [after_of_error hcall]
  | full _ hcall => rw [after_of_error hcall]

theorem size_strings_le_afterAll (h : s.Ordered) (steps : List AssemblyStep) :
    s.strings.size ≤ (s.afterAll steps).strings.size := by
  induction steps generalizing s with
  | nil => exact le_rfl
  | cons step steps ih => exact (size_strings_le_after h step).trans (ih (h.after step))

/-- **With room in the pool**, the state after a call shows the assembly after the step. -/
theorem assembly_after (h : s.Ordered) (hroom : s.strings.size < UInt32.size)
    (step : AssemblyStep) : (s.after step).assembly = s.assembly.after step := by
  cases call_cases h step with
  | done hcall hstep => rw [after_of_ok hcall, Assembly.after, hstep]
  | refused hcall hstep => rw [after_of_error hcall, Assembly.after, hstep]
  | full hfull => exact absurd hfull (Nat.not_le.2 hroom)

/-- **Calls one after another** show what the steps do, as long as there is room in the pool. -/
theorem assembly_afterAll (h : s.Ordered) {steps : List AssemblyStep}
    (hroom : (s.afterAll steps).strings.size < UInt32.size) :
    (s.afterAll steps).assembly = s.assembly.afterAll steps := by
  induction steps generalizing s with
  | nil => rfl
  | cons step steps ih =>
    have hstep := (size_strings_le_afterAll h (step :: steps)).trans_lt hroom
    have hrest := ih (h.after step) hroom
    rwa [assembly_after h hstep] at hrest

/-- **The finished program** is that of the steps. -/
theorem finish_afterAll {steps : List AssemblyStep}
    (hroom : (afterAll {} steps).strings.size < UInt32.size) :
    (afterAll {} steps).finish = (Assembly.afterAll {} steps).finish := by
  rw [← finish_assembly, assembly_afterAll ordered_empty hroom]
  rfl

end Assembler
end StackMachine
