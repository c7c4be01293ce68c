import StackMachine.Proofs.Assembler.Refinement

/-!
# Declarations that are visible

What a name stands for follows from the history of an assembler alone: which scopes were entered and
left, and which variables were declared. A declaration is visible until its scope is left, and it is
in the innermost scope if every scope that was entered after it was left again. The answers of
`declare` and `resolve` are those that the history asks for (`scopes_restore_and_shadow`), and after
a scope is left they are as before it was entered.
-/

namespace StackMachine

/-! ## Histories -/

/-- A variable that was declared, with the index that it got. -/
structure Declaration extends Variable where
  index : Nat
deriving DecidableEq

/-- What a call did to the scopes. -/
inductive ScopeEvent where
  | entered
  | left
  | declared (d : Declaration)
deriving DecidableEq

/-- How the scopes that are open at the end of a history differ from those at its beginning. -/
structure Nesting where
  /-- How many scopes of the beginning were left. -/
  closed : Nat := 0
  /-- How many scopes were entered and not left. -/
  opened : Nat := 0
deriving DecidableEq

namespace Nesting

/-- One event more. A scope that is left is one that was entered since, if there is any. -/
def after (n : Nesting) : ScopeEvent → Nesting
  | .entered => { n with opened := n.opened + 1 }
  | .left =>
    if n.opened = 0 then { n with closed := n.closed + 1 } else { n with opened := n.opened - 1 }
  | .declared _ => n

/-- One history after another: scopes that were entered in the first may be left in the second. -/
def append (n m : Nesting) : Nesting where
  closed := n.closed + (m.closed - n.opened)
  opened := (n.opened - m.closed) + m.opened

theorem append_after (n m : Nesting) (e : ScopeEvent) :
    n.append (m.after e) = (n.append m).after e := by
  cases e with
  | entered => rfl
  | declared d => rfl
  | left =>
    simp only [append, after]
    grind

end Nesting

/-- What a history does to the scopes. -/
def nesting (history : List ScopeEvent) : Nesting := history.foldl .after {}

theorem nesting_concat (history : List ScopeEvent) (e : ScopeEvent) :
    nesting (history ++ [e]) = (nesting history).after e := List.foldl_append

theorem nesting_append (history later : List ScopeEvent) :
    nesting (history ++ later) = (nesting history).append (nesting later) := by
  induction later using List.reverseRecOn with
  | nil => simp [nesting, Nesting.append]
  | append_singleton later e ih =>
    rw [← List.append_assoc, nesting_concat, nesting_concat, ih, Nesting.append_after]

/-- What comes last has opened no more than the whole. -/
theorem opened_eq_zero_of_append (history : List ScopeEvent) {later : List ScopeEvent}
    (h : (nesting (history ++ later)).opened = 0) : (nesting later).opened = 0 := by
  rw [nesting_append] at h
  exact (Nat.add_eq_zero_iff.1 h).2

/-- The declarations whose scope is still open, oldest first. Of them are taken those for which the
number of scopes that were entered after it and are still open passes a test. -/
def declarations (p : Nat → Bool) : List ScopeEvent → List Declaration
  | [] => []
  | .declared d :: later =>
    if (nesting later).closed = 0 ∧ p (nesting later).opened then d :: declarations p later
    else declarations p later
  | .entered :: later => declarations p later
  | .left :: later => declarations p later

/-- The declarations that are still visible, oldest first. -/
def stillVisible (history : List ScopeEvent) : List Declaration :=
  declarations (fun _ => true) history

/-- The declarations in the innermost scope that is still open, oldest first. -/
def inInnermost (history : List ScopeEvent) : List Declaration :=
  declarations (· == 0) history

/-! ## One event more -/

section

variable {p q : Nat → Bool} {history later : List ScopeEvent}

theorem declarations_congr (h : ∀ n, p n = q n) (history : List ScopeEvent) :
    declarations p history = declarations q history := by
  rw [funext h]

theorem declarations_entered (p : Nat → Bool) (history : List ScopeEvent) :
    declarations p (history ++ [.entered]) = declarations (fun n => p (n + 1)) history := by
  induction history with
  | nil => rfl
  | cons e history ih =>
    cases e <;> simp [declarations, nesting_concat, Nesting.after, ih]

theorem declarations_left (p : Nat → Bool) (history : List ScopeEvent) :
    declarations p (history ++ [.left]) = declarations (fun n => n != 0 && p (n - 1)) history := by
  induction history with
  | nil => rfl
  | cons e history ih =>
    cases e with
    | declared d =>
      by_cases hopened : (nesting history).opened = 0 <;>
        simp [declarations, nesting_concat, Nesting.after, ih, hopened]
    | _ => simpa [declarations] using ih

theorem declarations_declared (p : Nat → Bool) (history : List ScopeEvent) (d : Declaration) :
    declarations p (history ++ [.declared d]) =
      declarations p history ++ if p 0 then [d] else [] := by
  induction history with
  | nil => simp [declarations, nesting]
  | cons e history ih =>
    cases e with
    | declared d =>
      simp only [declarations, nesting_concat, Nesting.after, ih, List.cons_append]
      split <;> simp
    | _ => simpa [declarations] using ih

theorem declarations_false (history : List ScopeEvent) :
    declarations (fun _ => false) history = [] := by
  induction history with
  | nil => rfl
  | cons e history ih => cases e <;> simpa [declarations] using ih

/-! ## A scope that was left -/

/-- What leaves the scopes as they were adds its own declarations only. -/
theorem declarations_append (h : nesting later = {}) (p : Nat → Bool)
    (history : List ScopeEvent) :
    declarations p (history ++ later) = declarations p history ++ declarations p later := by
  induction history with
  | nil => rfl
  | cons e history ih =>
    cases e with
    | declared d =>
      have hnesting : nesting (history ++ later) = nesting history := by
        rw [nesting_append, h]
        simp [Nesting.append]
      simp only [List.cons_append, declarations, hnesting, ih]
      split <;> rfl
    | _ => simpa [declarations] using ih

/-- No scope that was entered is open, so no declaration has one after it. -/
theorem declarations_eq_nil (hopened : (nesting history).opened = 0) (hp : p 0 = false) :
    declarations p history = [] := by
  induction history with
  | nil => rfl
  | cons e history ih =>
    have hlater := opened_eq_zero_of_append [e] hopened
    cases e with
    | declared d => simpa [declarations, hlater, hp] using ih hlater
    | _ => exact ih hlater

/-- **A scope that was entered and left** leaves the declarations as they were. -/
theorem declarations_scope (h : nesting later = {}) (p : Nat → Bool) (history : List ScopeEvent) :
    declarations p (history ++ .entered :: (later ++ [.left])) = declarations p history := by
  have hscope : nesting (.entered :: (later ++ [.left])) = {} := by
    rw [← List.singleton_append, ← List.append_assoc, nesting_concat, nesting_append, h]
    rfl
  have hleft : declarations p (later ++ [.left]) = [] := by
    rw [declarations_left]
    exact declarations_eq_nil (by rw [h]) rfl
  rw [declarations_append hscope, declarations, hleft, List.append_nil]

end

/-! ## Scopes that follow a history -/

/-- Variables, newest first, with the indices that they get. -/
def numbered : List Variable → List Declaration
  | [] => []
  | v :: older => { v with index := older.length } :: numbered older

@[simp] theorem length_numbered (vs : List Variable) : (numbered vs).length = vs.length := by
  induction vs with
  | nil => rfl
  | cons v older ih => rw [numbered, List.length_cons, List.length_cons, ih]

/-- A name stands for the first numbered variable of this name. -/
theorem resolveIn_eq_find? (name : String) (vs : List Variable) :
    Scopes.resolveIn name vs =
      ((numbered vs).find? fun d => d.name == name).map fun d => ⟨d.index, d.isMutable⟩ := by
  induction vs with
  | nil => rfl
  | cons v older ih =>
    rw [numbered, Scopes.resolveIn, List.find?_cons]
    by_cases hname : v.name = name
    · simp [hname]
    · simp [hname, ih, beq_false_of_ne hname]

namespace Scopes

variable {s : Scopes} {history : List ScopeEvent}

/-- The scopes without some of the open ones, innermost first. -/
def without (s : Scopes) (k : Nat) : Scopes := { s with inner := s.inner.drop k }

/-- Scopes are what a history makes of none. Seen from any open scope, the visible variables are the
declarations that are visible there, and the variables of the scope are those declared in it. -/
structure Follows (s : Scopes) (history : List ScopeEvent) : Prop where
  nesting : nesting history = ⟨0, s.inner.length⟩
  visible : ∀ k ≤ s.inner.length,
    numbered (s.without k).visible = (declarations (k ≤ ·) history).reverse
  innermost : ∀ k ≤ s.inner.length,
    (s.without k).innermost = (declarations (· == k) history).reverse.map Declaration.toVariable

theorem follows_nil : Follows {} [] where
  nesting := rfl
  visible _ hk := by
    obtain rfl := Nat.le_zero.1 hk
    rfl
  innermost _ hk := by
    obtain rfl := Nat.le_zero.1 hk
    rfl

theorem Follows.enter (h : s.Follows history) : s.enter.Follows (history ++ [.entered]) where
  nesting := by
    rw [nesting_concat, h.nesting]
    rfl
  visible k hk := by
    rw [declarations_entered]
    cases k with
    | zero =>
      refine Eq.trans ?_ (h.visible 0 (Nat.zero_le _))
      exact congrArg numbered (visible_enter s)
    | succ k =>
      refine (h.visible k (Nat.le_of_succ_le_succ hk)).trans ?_
      refine congrArg List.reverse (declarations_congr (fun n => ?_) history)
      simp
  innermost k hk := by
    rw [declarations_entered]
    cases k with
    | zero =>
      have hnone : (fun n => n + 1 == 0) = fun _ => false := by
        funext n
        simp
      rw [hnone, declarations_false]
      rfl
    | succ k =>
      refine (h.innermost k (Nat.le_of_succ_le_succ hk)).trans ?_
      refine congrArg (fun ds => ds.reverse.map Declaration.toVariable)
        (declarations_congr (fun n => ?_) history)
      simp

theorem Follows.exit {t : Scopes} (h : s.Follows history) (hexit : s.exit? = some t) :
    t.Follows (history ++ [.left]) := by
  obtain ⟨_ | ⟨scope, inner⟩, outer⟩ := s
  · contradiction
  · obtain rfl := Option.some.inj hexit
    refine ⟨?_, fun k hk => ?_, fun k hk => ?_⟩
    · rw [nesting_concat, h.nesting]
      rfl
    · refine (h.visible (k + 1) (Nat.succ_le_succ hk)).trans ?_
      rw [declarations_left]
      refine congrArg List.reverse (declarations_congr (fun n => ?_) history)
      cases n <;> simp
    · refine (h.innermost (k + 1) (Nat.succ_le_succ hk)).trans ?_
      rw [declarations_left]
      refine congrArg (fun ds => ds.reverse.map Declaration.toVariable)
        (declarations_congr (fun n => ?_) history)
      cases n <;> simp

theorem inner_push (s : Scopes) (v : Variable) :
    (s.push v).inner.length = s.inner.length := by
  obtain ⟨_ | ⟨scope, inner⟩, outer⟩ := s <;> rfl

theorem innermost_push (s : Scopes) (v : Variable) :
    (s.push v).innermost = v :: s.innermost := by
  obtain ⟨_ | ⟨scope, inner⟩, outer⟩ := s <;> rfl

/-- A declaration is in the innermost scope, so the others are as they were. -/
theorem without_push {k : Nat} (hk : k < s.inner.length) (v : Variable) :
    (s.push v).without (k + 1) = s.without (k + 1) := by
  obtain ⟨_ | ⟨scope, inner⟩, outer⟩ := s
  · exact absurd hk (Nat.not_lt_zero k)
  · rfl

theorem Follows.push (h : s.Follows history) (v : Variable) :
    (s.push v).Follows (history ++ [.declared { v with index := s.visible.length }]) where
  nesting := by
    rw [nesting_concat, h.nesting, inner_push]
    rfl
  visible k hk := by
    rw [inner_push] at hk
    rw [declarations_declared, List.reverse_append]
    cases k with
    | zero =>
      have hall := h.visible 0 hk
      exact (congrArg numbered (visible_push s v)).trans (congrArg _ hall)
    | succ k =>
      rw [without_push hk]
      exact h.visible (k + 1) hk
  innermost k hk := by
    rw [inner_push] at hk
    rw [declarations_declared, List.reverse_append, List.map_append]
    cases k with
    | zero => exact (innermost_push s v).trans (congrArg _ (h.innermost 0 hk))
    | succ k =>
      rw [without_push hk]
      exact h.innermost (k + 1) hk

/-- **All visible variables** are the declarations that are still visible. -/
theorem Follows.numbered_visible (h : s.Follows history) :
    numbered s.visible = (stillVisible history).reverse := by
  refine (h.visible 0 (Nat.zero_le _)).trans ?_
  refine congrArg List.reverse (declarations_congr (fun n => ?_) history)
  simp

/-- **The innermost scope** has the declarations that are in it. -/
theorem Follows.declares_iff (h : s.Follows history) (name : String) :
    s.declares name = true ↔ ∃ d ∈ inInnermost history, d.name = name := by
  have hinnermost : s.innermost = _ := h.innermost 0 (Nat.zero_le _)
  rw [declares, hinnermost, List.any_map, List.any_reverse, List.any_eq_true]
  simp only [Function.comp_apply, beq_iff_eq]
  rfl

end Scopes

/-! ## The history of an assembler -/

/-- What a step did to the scopes when it was answered; one that failed did nothing. -/
def AssemblyStep.event? : AssemblyStep → Except AssemblyError AssemblyReply → Option ScopeEvent
  | .enterScope, .ok _ => some .entered
  | .exitScope, .ok _ => some .left
  | .declare name isMutable, .ok (.index n) => some (.declared ⟨⟨name, isMutable⟩, n⟩)
  | _, _ => none

theorem AssemblyStep.event?_error (step : AssemblyStep) (e : AssemblyError) :
    step.event? (.error e) = none := by
  cases step <;> rfl

/-- **A step that succeeds** adds its event to the history that the scopes follow. -/
theorem Scopes.Follows.perform {a b : Assembly} {history : List ScopeEvent} {step : AssemblyStep}
    {reply : AssemblyReply} (h : a.scopes.Follows history)
    (hstep : a.perform step = .ok (reply, b)) :
    b.scopes.Follows (history ++ (step.event? (.ok reply)).toList) := by
  have hsame : a.scopes.Follows (history ++ []) := by rwa [List.append_nil]
  cases step with
  | emit op =>
    obtain ⟨c, hemit, ⟨⟩⟩ := exists_of_map_ok hstep
    obtain ⟨-, rfl⟩ := Assembly.emit_ok hemit
    exact hsame
  | emitWith op imm =>
    obtain ⟨c, hemit, ⟨⟩⟩ := exists_of_map_ok hstep
    obtain ⟨-, -, rfl⟩ := Assembly.emitWith_ok hemit
    exact hsame
  | newLabel name =>
    cases hstep
    exact hsame
  | placeLabel label =>
    obtain ⟨c, hplace, ⟨⟩⟩ := exists_of_map_ok hstep
    obtain rfl := Assembly.placeLabel_ok hplace
    exact hsame
  | referTo label =>
    obtain ⟨c, hrefer, ⟨⟩⟩ := exists_of_map_ok hstep
    obtain ⟨-, rfl⟩ := Assembly.referTo_ok hrefer
    exact hsame
  | emitJump op label =>
    obtain ⟨c, hjump, ⟨⟩⟩ := exists_of_map_ok hstep
    obtain ⟨-, rfl⟩ := Assembly.referTo_ok (Assembly.emitJump_ok hjump).2
    exact hsame
  | enterScope =>
    obtain ⟨c, henter, ⟨⟩⟩ := exists_of_map_ok (x := a.enterScope) hstep
    obtain rfl := Assembly.enterScope_ok henter
    exact h.enter
  | exitScope =>
    obtain ⟨c, hexit, ⟨⟩⟩ := exists_of_map_ok hstep
    obtain ⟨scopes, hscopes, rfl⟩ := Assembly.exitScope_ok hexit
    exact h.exit hscopes
  | declare name isMutable =>
    obtain ⟨⟨index, c⟩, hdeclare, ⟨⟩⟩ := exists_of_map_ok hstep
    obtain ⟨-, rfl, rfl⟩ := Assembly.declare_ok hdeclare
    exact h.push ⟨name, isMutable⟩
  | resolve name =>
    obtain ⟨binding, -, ⟨⟩⟩ := exists_of_map_ok hstep
    exact hsame

namespace Assembler

variable {s : Assembler} {events : List ScopeEvent}

/-- What a sequence of calls did to the scopes. -/
def history (s : Assembler) (steps : List AssemblyStep) : List ScopeEvent :=
  (s.transcript steps).filterMap fun c => c.step.event? c.answer

theorem history_append (s : Assembler) (steps later : List AssemblyStep) :
    s.history (steps ++ later) = s.history steps ++ (s.afterAll steps).history later := by
  rw [history, transcript_append, List.filterMap_append, history, history]

theorem history_singleton (s : Assembler) (step : AssemblyStep) :
    s.history [step] = (step.event? (s.answer step)).toList := by
  rw [history, transcript, transcript]
  cases hevent : step.event? (s.answer step) <;> simp [hevent]

/-- **After a call**, the scopes follow the history with what the call did. -/
theorem follows_after (h : s.Ordered) (hfollows : s.assembly.scopes.Follows events)
    (step : AssemblyStep) :
    (s.after step).assembly.scopes.Follows (events ++ s.history [step]) := by
  rw [history_singleton]
  cases call_cases h step with
  | done hcall hstep =>
    rw [after_of_ok hcall, answer_of_ok hcall]
    exact hfollows.perform hstep
  | refused hcall =>
    rw [after_of_error hcall, answer_of_error hcall, AssemblyStep.event?_error, Option.toList_none,
      List.append_nil]
    exact hfollows
  | full _ hcall =>
    rw [after_of_error hcall, answer_of_error hcall, AssemblyStep.event?_error, Option.toList_none,
      List.append_nil]
    exact hfollows

/-- **In every state that is reached**, the scopes follow the history. -/
theorem follows_afterAll (steps : List AssemblyStep) :
    (afterAll {} steps).assembly.scopes.Follows (history {} steps) := by
  induction steps using List.reverseRecOn with
  | nil => exact Scopes.follows_nil
  | append_singleton steps step ih =>
    rw [afterAll_append, history_append]
    exact follows_after (ordered_afterAll steps) ih step

/-! ## Answers -/

/-- **A declaration is refused** exactly when the innermost scope has one of the name. -/
theorem answer_declare (h : s.Ordered) (hfollows : s.assembly.scopes.Follows events) (name : String)
    (isMutable : Bool) :
    s.answer (.declare name isMutable) =
      if ∃ d ∈ inInnermost events, d.name = name then .error (.duplicateName name)
      else .ok (.index (stillVisible events).length) := by
  have hdeclares := hfollows.declares_iff name
  have hlength := congrArg List.length hfollows.numbered_visible
  rw [length_numbered, List.length_reverse] at hlength
  rw [answer_eq h, Assembly.perform, Assembly.declare]
  by_cases hname : ∃ d ∈ inInnermost events, d.name = name
  · rw [if_pos (hdeclares.2 hname), if_pos hname]
    rfl
  · rw [if_neg (mt hdeclares.1 hname), if_neg hname, hlength]
    rfl

/-- **A name stands for** its newest declaration that is visible. -/
theorem answer_resolve (h : s.Ordered) (hfollows : s.assembly.scopes.Follows events)
    (name : String) :
    s.answer (.resolve name) =
      match (stillVisible events).reverse.find? fun d => d.name == name with
      | some d => .ok (.binding ⟨d.index, d.isMutable⟩)
      | none => .error (.unknownName name) := by
  have hresolve : s.assembly.scopes.resolve? name = _ := resolveIn_eq_find? name _
  rw [hfollows.numbered_visible] at hresolve
  rw [answer_eq h, Assembly.perform, Assembly.resolve, hresolve]
  cases (stillVisible events).reverse.find? fun d => d.name == name <;> rfl

/-! ## A scope that is entered and left -/

/-- The calls between entering a scope and leaving it leave all scopes that were open then open, and
none that they entered. -/
def StaysWithin (s : Assembler) (inner : List AssemblyStep) : Prop :=
  nesting ((s.after .enterScope).history inner) = {}

/-- **Leaving the scope succeeds**, and the history of it leaves no declaration. -/
theorem exit_of_staysWithin {steps inner : List AssemblyStep}
    (h : (afterAll {} steps).StaysWithin inner) :
    (afterAll {} (steps ++ .enterScope :: inner)).answer .exitScope = .ok .done ∧
      history {} (steps ++ .enterScope :: (inner ++ [.exitScope])) = history {} steps ++
        .entered :: (((afterAll {} steps).after .enterScope).history inner ++ [.left]) := by
  have hentered (calls : List AssemblyStep) : history {} (steps ++ .enterScope :: calls) =
      history {} steps ++ .entered :: ((afterAll {} steps).after .enterScope).history calls := by
    rw [history_append]
    rfl
  have hanswer : (afterAll {} (steps ++ .enterScope :: inner)).answer .exitScope = .ok .done := by
    have hnesting := (follows_afterAll (steps ++ .enterScope :: inner)).nesting
    rw [hentered, ← List.singleton_append, nesting_append, nesting_append, h] at hnesting
    rw [answer_eq (ordered_afterAll _), Assembly.perform, Assembly.exitScope]
    cases hscopes : (afterAll {} (steps ++ .enterScope :: inner)).assembly.scopes.inner with
    | nil =>
      -- The scope that was entered is open.
      rw [hscopes] at hnesting
      exact absurd (congrArg Nesting.opened hnesting) (Nat.succ_ne_zero _)
    | cons scope scopes =>
      rw [Scopes.exit?, hscopes]
      rfl
  refine ⟨hanswer, ?_⟩
  rw [hentered, history_append, history_singleton]
  rw [afterAll_append, afterAll_cons] at hanswer
  rw [hanswer]
  rfl

/-- **Scopes restore and shadow.** After any calls, with the history of scopes and declarations that
they made:

* the innermost scope begins within the variables, so its slice is in bounds;
* a declaration is refused exactly when the innermost scope that is open has one of the name, and
  else gets the number of visible declarations as its index;
* a name stands for its newest declaration that is visible, by the index and the flag that it was
  declared with, and is unknown exactly when there is none;
* once a scope is entered and left again, every declaration and every name is answered as before. -/
theorem scopes_restore_and_shadow (steps : List AssemblyStep) :
    (afterAll {} steps).base ≤ (afterAll {} steps).visible.size ∧
      (∀ name isMutable, (afterAll {} steps).answer (.declare name isMutable) =
        if ∃ d ∈ inInnermost (history {} steps), d.name = name then .error (.duplicateName name)
        else .ok (.index (stillVisible (history {} steps)).length)) ∧
      (∀ name, (afterAll {} steps).answer (.resolve name) =
        match (stillVisible (history {} steps)).reverse.find? fun d => d.name == name with
        | some d => .ok (.binding ⟨d.index, d.isMutable⟩)
        | none => .error (.unknownName name)) ∧
      ∀ inner, (afterAll {} steps).StaysWithin inner →
        (afterAll {} (steps ++ .enterScope :: inner)).answer .exitScope = .ok .done ∧
        (∀ name isMutable,
          (afterAll {} (steps ++ .enterScope :: (inner ++ [.exitScope]))).answer
              (.declare name isMutable) =
            (afterAll {} steps).answer (.declare name isMutable)) ∧
        ∀ name, (afterAll {} (steps ++ .enterScope :: (inner ++ [.exitScope]))).answer
            (.resolve name) =
          (afterAll {} steps).answer (.resolve name) := by
  have hdeclare (calls : List AssemblyStep) :=
    answer_declare (ordered_afterAll calls) (follows_afterAll calls)
  have hresolve (calls : List AssemblyStep) :=
    answer_resolve (ordered_afterAll calls) (follows_afterAll calls)
  refine ⟨(ordered_afterAll steps).base_le, hdeclare steps, hresolve steps, fun inner hinner => ?_⟩
  obtain ⟨hexit, hhistory⟩ := exit_of_staysWithin hinner
  have hsame (p : Nat → Bool) :
      declarations p (history {} (steps ++ .enterScope :: (inner ++ [.exitScope]))) =
        declarations p (history {} steps) := by
    rw [hhistory]
    exact declarations_scope hinner p _
  refine ⟨hexit, fun name isMutable => ?_, fun name => ?_⟩
  · rw [hdeclare, hdeclare, inInnermost, stillVisible, hsame, hsame]
    rfl
  · rw [hresolve, hresolve, stillVisible, hsame]
    rfl

/-- A name that was declared again in a scope stands for the new variable there, and for the old one
once the scope was left. -/
theorem shadowed_name_restored :
    (afterAll {} [.declare "x" false]).StaysWithin [.declare "x" true, .enterScope, .exitScope] ∧
      (afterAll {} [.declare "x" false, .enterScope, .declare "x" true]).answer (.resolve "x") =
        .ok (.binding ⟨1, true⟩) ∧
      (afterAll {} [.declare "x" false, .enterScope, .declare "x" true, .enterScope, .exitScope,
        .exitScope]).answer (.resolve "x") = .ok (.binding ⟨0, false⟩) := by
  have hwithin : (afterAll {} [.declare "x" false]).StaysWithin
      [.declare "x" true, .enterScope, .exitScope] := by
    unfold StaysWithin
    decide +kernel
  obtain ⟨-, -, hshadowed, -⟩ :=
    scopes_restore_and_shadow [.declare "x" false, .enterScope, .declare "x" true]
  obtain ⟨-, -, hdeclared, hleft⟩ := scopes_restore_and_shadow [.declare "x" false]
  refine ⟨hwithin, (hshadowed "x").trans (by decide +kernel), ?_⟩
  exact ((hleft _ hwithin).2.2 "x").trans ((hdeclared "x").trans (by decide +kernel))

end Assembler
end StackMachine
