import StackMachine.Proofs.Machine.Bounds

/-!
# Scopes that are closed where they were opened

A closing of a scope belongs to the opening before it after which all scopes that were opened have
been closed again. Every closing that succeeds has one, wherever control went in between, and it
leaves exactly as many variables as there were at that opening.
-/

namespace StackMachine

/-! ## Openings and closings -/

/-- Opcodes among which every scope that is opened is closed again, and no other. -/
inductive Balanced : List Opcode → Prop
  | nil : Balanced []
  | other {op : Opcode} {ops : List Opcode} (hopen : op ≠ .enterScope) (hclose : op ≠ .leaveScope)
      (hrest : Balanced ops) : Balanced (op :: ops)
  | scope {inner ops : List Opcode} (hinner : Balanced inner) (hrest : Balanced ops) :
      Balanced (.enterScope :: (inner ++ .leaveScope :: ops))

theorem Balanced.append {ops ops' : List Opcode} (h : Balanced ops) (h' : Balanced ops') :
    Balanced (ops ++ ops') := by
  induction h with
  | nil => exact h'
  | other hopen hclose _ ih => exact .other hopen hclose ih
  | scope hinner _ _ ih =>
    rw [List.cons_append, List.append_assoc]
    exact .scope hinner ih

/-- The scope that is innermost after some opcodes was opened after the first of them. -/
def OpenedAfter (before ops : List Opcode) : Prop :=
  ∃ inner, ops = before ++ .enterScope :: inner ∧ Balanced inner

namespace Run

variable {config : Config} {p : Program} {r s t : Run}

/-! ## What a step does to the marks -/

/-- Opening a scope marks the number of variables. -/
theorem marks_of_enterScope {i : Instruction} {m n : Machine} {flow : Flow}
    (hrun : Machine.execute i m = .ok flow n) (hop : i.opcode = .enterScope) :
    n.marks = m.slots.size :: m.marks := by
  obtain ⟨k, hprepared, hcompletes⟩ := Machine.completes_of_execute_ok hrun
  rw [hop] at hcompletes
  cases hcompletes with
  | enterScope => rw [hprepared.slots, hprepared.marks]

/-- Closing a scope takes its mark away and leaves as many variables as it says. -/
theorem marks_of_leaveScope {i : Instruction} {m n : Machine} {flow : Flow}
    (hm : m.Bounded config p) (hrun : Machine.execute i m = .ok flow n)
    (hop : i.opcode = .leaveScope) : m.marks = n.slots.size :: n.marks := by
  obtain ⟨k, hprepared, hcompletes⟩ := Machine.completes_of_execute_ok hrun
  rw [hop] at hcompletes
  cases hcompletes with
  | leaveScope hmarks =>
    next mark marks =>
    have hcut : mark ≤ k.slots.size := (hm.prepared hprepared).marked mark (by simp [hmarks])
    rw [← hprepared.marks, hmarks, Array.size_shrink, Nat.min_eq_left hcut]

/-- A scope that is open can be closed. -/
theorem execute_leaveScope {i : Instruction} {m : Machine} {mark : Nat} {marks : List Nat}
    (hop : i.opcode = .leaveScope) (hmarks : m.marks = mark :: marks) :
    Machine.execute i m = .ok .next { m with marks, slots := m.slots.shrink mark } := by
  rw [Machine.execute, hop]
  show EStateM.bind Machine.leaveScope _ m = _
  rw [EStateM.bind, Machine.leaveScope, hmarks]
  rfl

/-- Nothing else changes the marks. -/
theorem marks_of_other {i : Instruction} {m n : Machine} {flow : Flow}
    (hrun : Machine.execute i m = .ok flow n) (hopen : i.opcode ≠ .enterScope)
    (hclose : i.opcode ≠ .leaveScope) : n.marks = m.marks := by
  obtain ⟨k, hprepared, hcompletes⟩ := Machine.completes_of_execute_ok hrun
  have hkind : i.opcode.ending ≠ .enterScope ∧ i.opcode.ending ≠ .leaveScope := by
    revert hopen hclose
    generalize i.opcode = op
    cases op <;> decide
  generalize i.opcode.ending = kind at hcompletes hkind
  cases hcompletes with
  | enterScope => exact absurd rfl hkind.1
  | leaveScope => exact absurd rfl hkind.2
  | _ => exact hprepared.marks

/-! ## What a path does to the marks -/

theorem Executes.bounded {ops : List Opcode} (h : r.Executes ops s)
    (hr : r.machine.Bounded config p) : s.machine.Bounded config p := by
  have hadvance := bounded_advance hr ops.length
  rwa [h.advance] at hadvance

/-- A path of one step. -/
theorem Executes.exists_execute {op : Opcode} (h : r.Executes [op] s) :
    ∃ i flow m, i.opcode = op ∧ Machine.execute i r.counted = .ok flow m ∧
      s.machine.marks = m.marks ∧ s.machine.slots = m.slots := by
  cases h with
  | step hdecode hstep hrest =>
    cases hrest
    obtain ⟨i, flow, m, x, hi, hrun, -, hs⟩ := exists_of_step_inl hstep
    rw [hdecode] at hi
    obtain rfl := Except.ok.inj hi
    exact ⟨_, flow, m, rfl, hrun, by rw [hs], by rw [hs]⟩

theorem Executes.enterScope (h : r.Executes [.enterScope] s) :
    s.machine.marks = r.machine.slots.size :: r.machine.marks := by
  obtain ⟨i, flow, m, hop, hrun, hmarks, -⟩ := h.exists_execute
  rw [hmarks, marks_of_enterScope hrun hop]
  rfl

theorem Executes.leaveScope (h : r.Executes [.leaveScope] s) (hr : r.machine.Bounded config p) :
    r.machine.marks = s.machine.slots.size :: s.machine.marks := by
  obtain ⟨i, flow, m, hop, hrun, hmarks, hslots⟩ := h.exists_execute
  rw [hmarks, hslots]
  have hcounted : r.counted.Bounded config p := { hr with }
  show r.counted.marks = _
  exact marks_of_leaveScope hcounted hrun hop

theorem Executes.other {op : Opcode} (h : r.Executes [op] s) (hopen : op ≠ .enterScope)
    (hclose : op ≠ .leaveScope) : s.machine.marks = r.machine.marks := by
  obtain ⟨i, flow, m, rfl, hrun, hmarks, -⟩ := h.exists_execute
  rw [hmarks, marks_of_other hrun hopen hclose]
  rfl

/-- A path that closes what it opens leaves the marks as they were. -/
theorem Executes.marks_of_balanced {ops : List Opcode} (hbalanced : Balanced ops)
    (h : r.Executes ops s) (hr : r.machine.Bounded config p) :
    s.machine.marks = r.machine.marks := by
  induction hbalanced generalizing r s with
  | nil =>
    cases h
    rfl
  | @other op ops hopen hclose hrest ih =>
    obtain ⟨q, hfirst, hlater⟩ := h.uncons
    rw [ih hlater (hfirst.bounded hr), hfirst.other hopen hclose]
  | @scope inner ops hinner hrest ihinner ihrest =>
    obtain ⟨q₁, hfirst, hlater⟩ := h.uncons
    obtain ⟨q₂, hinside, hlater⟩ := hlater.split
    obtain ⟨q₃, hlast, hlater⟩ := hlater.uncons
    have hq₁ := hfirst.bounded hr
    have hq₂ := hinside.bounded hq₁
    -- The mark that closing takes is the one that opening made.
    have hmarks := hlast.leaveScope hq₂
    rw [ihinner hinside hq₁, hfirst.enterScope] at hmarks
    rw [ihrest hlater (hlast.bounded hq₂), (List.cons.inj hmarks).2]

/-- **The innermost mark** of a path that began without any was made by an opening after which
scopes were opened and closed in pairs. -/
theorem Executes.exists_opened {ops : List Opcode} {mark : Nat} {marks : List Nat}
    (h : r.Executes ops s) (hr : r.machine.Bounded config p) (hnone : r.machine.marks = [])
    (hs : s.machine.marks = mark :: marks) :
    ∃ before q, OpenedAfter before ops ∧ r.Executes before q ∧ q.machine.marks = marks := by
  -- From a closing at the end the search goes back to a state with a mark more, and from there on.
  induction hlength : ops.length using Nat.strong_induction_on
    generalizing ops s mark marks with
  | _ n ih =>
    subst hlength
    rcases List.eq_nil_or_concat ops with rfl | ⟨ops, op, rfl⟩
    · cases h
      rw [hnone] at hs
      contradiction
    · rw [List.concat_eq_append] at h ⊢
      have hshorter : ops.length < (ops.concat op).length := by simp
      obtain ⟨q, hq, hlast⟩ := h.split
      by_cases hopen : op = .enterScope
      · subst hopen
        rw [hlast.enterScope] at hs
        exact ⟨ops, q, ⟨[], rfl, .nil⟩, hq, (List.cons.inj hs).2⟩
      · by_cases hclose : op = .leaveScope
        · subst hclose
          have hmarks := hlast.leaveScope (hq.bounded hr)
          obtain ⟨before₁, q₁, ⟨inner₁, rfl, hinner₁⟩, hq₁, hmarks₁⟩ :=
            ih _ hshorter hq hmarks rfl
          obtain ⟨before₂, q₂, ⟨inner₂, rfl, hinner₂⟩, hq₂, hmarks₂⟩ :=
            ih _ (by simp) hq₁ (hmarks₁.trans hs) rfl
          refine ⟨before₂, q₂, ⟨inner₂ ++ .enterScope :: (inner₁ ++ [.leaveScope]), by simp, ?_⟩,
            hq₂, hmarks₂⟩
          exact hinner₂.append (.scope hinner₁ .nil)
        · rw [hlast.other hopen hclose] at hs
          obtain ⟨before, q₁, ⟨inner, rfl, hinner⟩, hq₁, hmarks₁⟩ := ih _ hshorter hq hs rfl
          refine ⟨before, q₁, ⟨inner ++ [op], by simp, ?_⟩, hq₁, hmarks₁⟩
          exact hinner.append (.other hopen hclose .nil)

/-- A path that opened the innermost scope after its first opcodes ends with the mark that was made
there. -/
theorem Executes.exists_marks_of_openedAfter {before ops : List Opcode} (h : r.Executes ops s)
    (hr : r.machine.Bounded config p) (hopened : OpenedAfter before ops) :
    ∃ q, r.Executes before q ∧
      s.machine.marks = q.machine.slots.size :: q.machine.marks := by
  obtain ⟨inner, rfl, hinner⟩ := hopened
  obtain ⟨q, hq, hlater⟩ := h.split
  obtain ⟨q₁, hfirst, hinside⟩ := hlater.uncons
  have hq₁ := hfirst.bounded (hq.bounded hr)
  exact ⟨q, hq, by rw [hinside.marks_of_balanced hinner hq₁, hfirst.enterScope]⟩

end Run

/-! ## Every run -/

/-- **The state of a machine that runs.** Whatever the code and the pool are, and whatever the
limits, every state of a run is within its bounds. A state that the run goes on from is reached by a
path. A closing of a scope succeeds there when a scope that was opened on the path is open; one that
succeeds has an opening on the path that it belongs to, and leaves exactly as many variables as
there were at that opening. -/
theorem run_bounded_and_scopes_matched (config : Config) (p : Program) (sink : Sink) :
    (∀ n, Run.Bounded config p (Run.advance ⟨.start config p, sink⟩ n)) ∧
      ∀ n r, Run.advance ⟨.start config p, sink⟩ n = .inl r →
        ∃ ops, ops.length = n ∧ Run.Executes ⟨.start config p, sink⟩ ops r ∧
          (∀ i before, i.opcode = .leaveScope → OpenedAfter before ops →
            ∃ m, Machine.execute i r.counted = .ok .next m) ∧
          ∀ i flow m, i.opcode = .leaveScope → Machine.execute i r.counted = .ok flow m →
            (∃ before q, OpenedAfter before ops ∧
              Run.Executes ⟨.start config p, sink⟩ before q) ∧
            ∀ before q, OpenedAfter before ops → Run.Executes ⟨.start config p, sink⟩ before q →
              m.slots.size = q.machine.slots.size := by
  have hstart := Machine.bounded_start config p
  refine ⟨fun n => Run.bounded_advance hstart n, ?_⟩
  intro n r hreached
  obtain ⟨ops, hlength, hpath⟩ := Run.exists_executes hreached
  refine ⟨ops, hlength, hpath, fun i before hop hopened => ?_, fun i flow m hop hrun => ?_⟩
  · obtain ⟨q, -, hmarks⟩ := hpath.exists_marks_of_openedAfter hstart hopened
    exact ⟨_, Run.execute_leaveScope hop hmarks⟩
  have hr := hpath.bounded hstart
  have hcounted : r.counted.Bounded config p := { hr with }
  have hmarks := Run.marks_of_leaveScope hcounted hrun hop
  constructor
  · obtain ⟨before, q, hopened, hq, -⟩ := hpath.exists_opened hstart rfl hmarks
    exact ⟨before, q, hopened, hq⟩
  · intro before q hopened hq
    obtain ⟨q', hq', hopen⟩ := hpath.exists_marks_of_openedAfter hstart hopened
    obtain rfl := hq.unique hq'
    exact (List.cons.inj (hmarks.symm.trans hopen)).1

/-- A variable is defined, a scope is opened and another one defined in it: the scope can be closed,
which leaves the variable that there was before it. -/
theorem scope_closed_with_its_variable :
    let p : Program := { code := #[0x00, 0x18, 0x1c, 0x00, 0x18, 0x1d] }
    ∃ r m, Run.advance ⟨.start {} p, {}⟩ 5 = .inl r ∧ r.machine.slots.size = 2 ∧
      Machine.execute ⟨5, .leaveScope, .none⟩ r.counted = .ok .next m ∧ m.slots.size = 1 := by
  intro p
  let outside : Machine := { program := p, ip := 2, slots := #[.nil], steps := 2 }
  let inside : Machine := { outside with ip := 3, marks := [1], steps := 3 }
  let last : Machine := { inside with ip := 5, slots := #[.nil, .nil], steps := 5 }
  have hbefore : Run.Executes ⟨.start {} p, {}⟩ [.pushNil, .define] ⟨outside, {}⟩ :=
    .step (i := ⟨0, .pushNil, .none⟩) rfl rfl (.step (i := ⟨1, .define, .none⟩) rfl rfl (.refl _))
  have hafter : Run.Executes ⟨outside, {}⟩ [.enterScope, .pushNil, .define] ⟨last, {}⟩ :=
    .step (i := ⟨2, .enterScope, .none⟩) rfl (s := ⟨inside, {}⟩) rfl
      (.step (i := ⟨3, .pushNil, .none⟩) rfl rfl
        (.step (i := ⟨4, .define, .none⟩) rfl rfl (.refl _)))
  have hknown := hbefore.append hafter
  obtain ⟨ops, hlength, hpath, hcloses, hleaves⟩ :=
    (run_bounded_and_scopes_matched {} p {}).2 5 _ hknown.advance
  obtain rfl := hpath.ops_unique hknown hlength
  have hopened : OpenedAfter [.pushNil, .define]
      [.pushNil, .define, .enterScope, .pushNil, .define] :=
    ⟨[.pushNil, .define], rfl, .other nofun nofun (.other nofun nofun .nil)⟩
  obtain ⟨m, hm⟩ := hcloses ⟨5, .leaveScope, .none⟩ _ rfl hopened
  exact ⟨_, m, hknown.advance, rfl, hm, (hleaves _ _ m rfl hm).2 _ _ hopened hbefore⟩

end StackMachine
