import StackMachine.Proofs.Machine.Leads
import StackMachine.Proofs.Machine.Phases
import StackMachine.Proofs.Machine.StackEffect
import StackMachine.Proofs.Machine.Steps

/-!
# The nil at the bottom

A run begins with a nil on its stack, which is among the results only when nothing else is. To tell
it from every other nil the values on the stack are followed by their origins (`Run.origins`): an
instruction takes as many off the top as it needs and puts new ones there, whatever they are. The
machine only records whether its stack was ever empty, and that is enough: a call, which takes a
value from below others, takes a function and so never that nil (`Machine.Dated.call`).
-/

namespace StackMachine

/-! ## Origins -/

/-- Where a value on the stack comes from. -/
inductive Origin where
  /-- It is the nil that the stack began with. -/
  | initial
  /-- An instruction has put it there. -/
  | pushed
deriving DecidableEq, Repr

/-- The origins of the values on the stack after an instruction that succeeds. The values that it
needs are gone from the top, and what it gives in their place is new. Doubling a value leaves it
where it is, and a call takes the function from below its arguments. -/
def Instruction.origins (i : Instruction) (before : List Origin) : List Origin :=
  let n := i.argument.toNat
  match i.opcode with
  | .dup => before ++ [.pushed]
  | .call => before.eraseIdx (before.length - (n + 1))
  | op => before.take (before.length - op.need n) ++ .replicate (op.given n) .pushed

example : Instruction.origins ⟨0, .add, .none⟩ [.initial, .pushed, .pushed] = [.initial, .pushed] ∧
    Instruction.origins ⟨0, .not, .none⟩ [.initial] = [.pushed] := by decide

/-- The nil that the stack began with is nowhere but at the bottom. -/
def Origin.Lowest (origins : List Origin) : Prop :=
  ∀ place, origins[place]? = some .initial → place = 0

/-- A machine whose values have these origins. Its record of whether the nil that the stack began
with is still there is right, and while it is there it is at the bottom. -/
structure Machine.Dated (m : Machine) (origins : List Origin) : Prop where
  length_eq : origins.length = m.stack.size
  pristine_iff : m.pristine = true ↔ .initial ∈ origins
  lowest : Origin.Lowest origins
  bottom : .initial ∈ origins → m.stack[0]? = some .nil

namespace Origin.Lowest

variable {origins : List Origin}

theorem mem_iff (h : Lowest origins) : .initial ∈ origins ↔ origins[0]? = some .initial := by
  constructor
  · intro hmem
    obtain ⟨place, hplace⟩ := List.mem_iff_getElem?.1 hmem
    rwa [h place hplace] at hplace
  · exact List.mem_of_getElem?

theorem take (h : Lowest origins) (k : Nat) : Lowest (origins.take k) := by
  intro place hplace
  rw [List.getElem?_take] at hplace
  split at hplace
  · exact h place hplace
  · contradiction

theorem mem_take (h : Lowest origins) (k : Nat) :
    .initial ∈ origins.take k ↔ .initial ∈ origins ∧ 0 < k := by
  rw [(h.take k).mem_iff, h.mem_iff, List.getElem?_take]
  split
  · next hk => exact ⟨fun hfirst => ⟨hfirst, hk⟩, And.left⟩
  · next hk => exact ⟨nofun, fun hfirst => absurd hfirst.2 hk⟩

/-- A value above the nil at the bottom may be taken out. -/
theorem eraseIdx (h : Lowest origins) (place : Nat) : Lowest (origins.eraseIdx place) := by
  intro j hj
  rw [List.getElem?_eraseIdx] at hj
  split at hj
  · exact h j hj
  · exact absurd (h (j + 1) hj) (Nat.succ_ne_zero j)

theorem mem_eraseIdx (h : Lowest origins) {place : Nat} (hplace : .initial ∈ origins → place ≠ 0) :
    .initial ∈ origins.eraseIdx place ↔ .initial ∈ origins := by
  refine ⟨List.mem_of_mem_eraseIdx, fun hmem => ?_⟩
  have hpos : 0 < place := Nat.pos_of_ne_zero (hplace hmem)
  rw [(h.eraseIdx place).mem_iff, List.getElem?_eraseIdx, if_pos hpos]
  exact h.mem_iff.1 hmem

theorem push (h : Lowest origins) : Lowest (origins ++ [.pushed]) := by
  intro place hplace
  rw [List.getElem?_append] at hplace
  split at hplace
  · exact h place hplace
  · exact absurd (List.mem_singleton.1 (List.mem_of_getElem? hplace)) nofun

end Origin.Lowest

namespace Machine

variable {config : Config} {p : Program} {m n k : Machine} {i : Instruction} {why : Fault}
  {flow : Flow} {origins : List Origin}

theorem dated_start (config : Config) (p : Program) : (start config p).Dated [.initial] where
  length_eq := rfl
  pristine_iff := ⟨fun _ => List.mem_singleton.2 rfl, fun _ => rfl⟩
  lowest := by
    rintro (_ | place) hplace
    · rfl
    · contradiction
  bottom := fun _ => rfl

theorem Dated.size_pos (h : m.Dated origins) (hflag : m.pristine = true) : 0 < m.stack.size :=
  (Array.getElem?_eq_some_iff.1 (h.bottom (h.pristine_iff.1 hflag))).1

/-! ## One instruction -/

/-- Taking values off the top. -/
theorem Dated.prepared (h : m.Dated origins) (hk : m.Prepared k) :
    k.Dated (origins.take k.stack.size) where
  length_eq := by
    have hsize : k.stack.size ≤ m.stack.size := hk.stack.length_le
    rw [List.length_take, h.length_eq, Nat.min_eq_left hsize]
  pristine_iff := by
    rw [h.lowest.mem_take, ← h.pristine_iff, hk.pristine h.size_pos, Bool.and_eq_true, bne_iff_ne,
      Nat.pos_iff_ne_zero]
  lowest := h.lowest.take _
  bottom := by
    intro hmem
    obtain ⟨hmem, hpos⟩ := (h.lowest.mem_take _).1 hmem
    obtain ⟨taken, htaken⟩ := hk.stack
    rw [← h.bottom hmem, ← Array.getElem?_toList, ← Array.getElem?_toList, ← htaken,
      List.getElem?_append_left hpos]

/-- Pushing a value. -/
theorem Dated.push (h : m.Dated origins) (v : Value) :
    Dated { m with stack := m.stack.push v } (origins ++ [.pushed]) where
  length_eq := by simp [h.length_eq]
  pristine_iff := by simpa using h.pristine_iff
  lowest := h.lowest.push
  bottom := by
    intro hmem
    have hvalue := h.bottom (by simpa using hmem)
    obtain ⟨hpos, -⟩ := Array.getElem?_eq_some_iff.1 hvalue
    rw [Array.getElem?_push_lt hpos, ← hvalue, Array.getElem?_eq_getElem hpos]

/-- Taking a function from below its arguments: the nil at the bottom is no function. -/
theorem Dated.call (h : m.Dated origins) {slot : Nat} {f : Function}
    (hcallee : m.stack[slot]? = some (.function f)) (frames : Array Nat) :
    Dated { m with
      stack := m.stack.eraseIdxIfInBounds slot
      pristine := m.pristine && m.stack.size != 1
      frames } (origins.eraseIdx slot) := by
  obtain ⟨hslot, -⟩ := Array.getElem?_eq_some_iff.1 hcallee
  have habove (hmem : .initial ∈ origins) : slot ≠ 0 := by
    rintro rfl
    exact nomatch hcallee.symm.trans (h.bottom hmem)
  have hmem_iff := h.lowest.mem_eraseIdx habove
  constructor
  · show (origins.eraseIdx slot).length = (m.stack.eraseIdxIfInBounds slot).size
    rw [List.length_eraseIdx, Array.size_eraseIdxIfInBounds, h.length_eq]
  · rw [hmem_iff, ← h.pristine_iff, Bool.and_eq_true, bne_iff_ne, and_iff_left_iff_imp]
    intro hflag
    have := habove (h.pristine_iff.1 hflag)
    omega
  · exact h.lowest.eraseIdx slot
  · intro hmem
    have hpos : 0 < slot := Nat.pos_of_ne_zero (habove (hmem_iff.1 hmem))
    show (m.stack.eraseIdxIfInBounds slot)[0]? = some .nil
    rw [← h.bottom (hmem_iff.1 hmem), ← Array.getElem?_toList, Array.toList_eraseIdxIfInBounds,
      List.getElem?_eraseIdx, if_pos hpos, Array.getElem?_toList]

/-- What the last action of an instruction that is no call puts on the stack. -/
theorem Dated.completes {back : Nat} {kind : Ending} (h : k.Dated origins)
    (hcompletes : k.Completes back kind flow n) (hkind : kind ≠ .call) :
    let count := if kind = .push then 1 else 0
    n.stack.size = k.stack.size + count ∧ n.Dated (origins ++ .replicate count .pushed) := by
  cases hcompletes with
  | push v => exact ⟨Array.size_push v, h.push v⟩
  | call => exact absurd rfl hkind
  | _ =>
    refine ⟨rfl, ?_⟩
    rw [if_neg nofun, List.replicate_zero, List.append_nil]
    exact { h with }

/-- The end of an instruction that is no call says how many values it gives, but for a value that is
doubled. -/
private theorem given_eq (op : Opcode) (n : Nat) (hdup : op ≠ .dup) (hcall : op ≠ .call) :
    op.given n = if op.ending = .push then 1 else 0 := by
  cases op <;> first | rfl | contradiction

private theorem origins_eq (hdup : i.opcode ≠ .dup) (hcall : i.opcode ≠ .call) :
    i.origins origins =
      origins.take (origins.length - i.opcode.need i.argument.toNat) ++
        .replicate (i.opcode.given i.argument.toNat) .pushed := by
  obtain ⟨offset, op, a⟩ := i
  cases op <;> first | rfl | contradiction

/-- **An instruction that succeeds** leaves values with the origins that it says. -/
theorem Dated.executed (h : m.Dated origins) (hrun : execute i m = .ok flow n) :
    n.Dated (i.origins origins) := by
  by_cases hcall : i.opcode = .call
  · obtain ⟨offset, op, a⟩ := i
    obtain rfl : op = .call := hcall
    obtain ⟨-, f, hcallee, rfl⟩ := exists_of_call_ok hrun
    show Dated _ (origins.eraseIdx (origins.length - (a.toNat + 1)))
    rw [h.length_eq]
    exact h.call hcallee _
  · obtain ⟨k, hprepared, hcompletes⟩ := completes_of_execute_ok hrun
    have hkind : i.opcode.ending ≠ .call := by
      revert hcall
      cases i.opcode <;> decide
    obtain ⟨hcount, hn⟩ := (h.prepared hprepared).completes hcompletes hkind
    obtain ⟨hneed, hsize⟩ := size_of_execute_ok hrun
    by_cases hdup : i.opcode = .dup
    · -- The value that is doubled was not taken off, though the opcode needs it.
      rw [hdup] at hsize hcount hn
      have hwhole : k.stack.size = origins.length := by
        rw [h.length_eq]
        simpa [Opcode.need, Opcode.given, Opcode.ending, hcount] using hsize
      rw [Instruction.origins, hdup]
      rwa [hwhole, List.take_length] at hn
    · have hgiven := given_eq i.opcode i.argument.toNat hdup hcall
      have hrest : k.stack.size = origins.length - i.opcode.need i.argument.toNat := by
        rw [h.length_eq]
        omega
      rwa [origins_eq hdup hcall, hgiven, ← hrest]

/-- **An instruction that fails** has only taken values off the top. -/
theorem Dated.failed (h : m.Dated origins) (hrun : Machine.execute i m = .error why n) :
    n.Dated (origins.take n.stack.size) :=
  h.prepared (prepared_of_execute_error hrun)

end Machine

/-! ## Every run -/

namespace Run

variable {r : Run} {before : List Origin}

/-- The origins after the next step: those after the instruction that it executes, or, if that
fails, of the values that it has left. -/
def stepOrigins (r : Run) (before : List Origin) : List Origin :=
  match r.instruction? with
  | none => before
  | some i =>
    match Machine.execute i r.counted with
    | .ok _ _ => i.origins before
    | .error _ m => before.take m.stack.size

/-- The origins of the values that a run has on its stack after so many steps. -/
def origins (r : Run) (before : List Origin) : Nat → List Origin
  | 0 => before
  | n + 1 =>
    match r.step with
    | .inl s => s.origins (r.stepOrigins before) n
    | .inr _ => r.stepOrigins before

/-- **One step** leaves values with the origins that it says. -/
theorem dated_step (h : r.machine.Dated before) :
    (machineOf r.step).Dated (r.stepOrigins before) := by
  have hcounted : r.counted.Dated before := { h with }
  have hstep := r.steps_step
  unfold stepOrigins
  generalize r.step = next at hstep ⊢
  cases hstep with
  | atEnd hnone | exhausted hnone =>
    rw [hnone]
    exact h
  | undecodable hnone | refused hnone =>
    rw [hnone]
    exact hcounted
  | failed sink hinstruction hrun =>
    rw [hinstruction]
    dsimp only
    rw [hrun]
    exact hcounted.failed hrun
  | refusedStack sink hinstruction hrun | halted sink hinstruction hrun =>
    rw [hinstruction]
    dsimp only
    rw [hrun]
    exact hcounted.executed hrun
  | goes sink hinstruction hrun =>
    rw [hinstruction]
    dsimp only
    rw [hrun]
    exact { hcounted.executed hrun with }

/-- **A run** has values with the origins that its steps say, as long as it goes on and where it
ends. -/
theorem dated_advance (h : r.machine.Dated before) (n : Nat) :
    (machineOf (r.advance n)).Dated (r.origins before n) := by
  induction n generalizing r before with
  | zero => exact h
  | succ n ih =>
    have hstep := dated_step h
    rw [advance, origins]
    cases hs : r.step with
    | inl s =>
      rw [hs] at hstep
      exact ih hstep
    | inr o =>
      rw [hs] at hstep
      exact hstep

/-- A run that ends well gives the results of the machine that it leaves. -/
theorem results_of_advance {o : Outcome} {values : Array Value} {n : Nat}
    (h : r.advance n = .inr o) (hvalues : o.result = .ok values) : values = o.machine.results := by
  obtain ⟨k, s, -, hlast⟩ := exists_last_step h
  have hstep := s.steps_step
  rw [hlast] at hstep
  cases hstep with
  | atEnd | halted => exact (Except.ok.inj hvalues).symm
  | exhausted | undecodable | refused | failed | refusedStack => contradiction

end Run

/-- What a machine gives whose values have these origins. -/
theorem Machine.Dated.results {m : Machine} {origins : List Origin} (h : m.Dated origins) :
    (.initial ∉ origins → m.results = m.stack) ∧
    (.initial ∈ origins → m.stack.size = 1 → m.results = #[.nil]) ∧
    (.initial ∈ origins → m.stack.size ≠ 1 → m.results.toList = m.stack.toList.tail) := by
  unfold Machine.results
  refine ⟨fun hmem => ?_, fun hmem hsize => ?_, fun hmem hsize => ?_⟩
  · have hflag : m.pristine = false := by
      rw [← Bool.not_eq_true, h.pristine_iff]
      exact hmem
    simp [hflag]
  · rw [if_neg (by simp [hsize])]
    refine Array.ext_getElem? fun place => ?_
    cases place with
    | zero => exact h.bottom hmem
    | succ place => simp [hsize]
  · have hpos := h.size_pos (h.pristine_iff.2 hmem)
    have hmore : 1 < m.stack.size := by omega
    rw [if_pos (by simp [h.pristine_iff.2 hmem, hmore]), Array.toList_extract,
      List.extract_eq_take_drop, ← Array.length_toList, ← List.length_drop, List.take_length,
      List.drop_one]

/-- **The nil at the bottom is a result only when it is all there is.** In every state of a run the
machine records rightly whether the nil that the stack began with is still there, and while it is
there it is the lowest value. A run that succeeds gives the whole stack if that nil was taken, that
nil if nothing else is left, and otherwise the values above it. -/
theorem initial_nil_reported_only_alone (config : Config) (p : Program) (sink : Sink) (n : Nat) :
    let r : Run := ⟨.start config p, sink⟩
    let origins := r.origins [.initial] n
    let m := Run.machineOf (r.advance n)
    origins.length = m.stack.size ∧ (m.pristine = true ↔ .initial ∈ origins) ∧
    (m.pristine = true → origins[0]? = some .initial ∧ m.stack[0]? = some .nil) ∧
    ∀ o values, r.advance n = .inr o → o.result = .ok values →
      (.initial ∉ origins → values = o.machine.stack) ∧
      (.initial ∈ origins → o.machine.stack.size = 1 → values = #[.nil]) ∧
      (.initial ∈ origins → o.machine.stack.size ≠ 1 →
        values.toList = o.machine.stack.toList.tail) := by
  intro r origins m
  have hm : m.Dated origins := Run.dated_advance (Machine.dated_start config p) n
  refine ⟨hm.length_eq, hm.pristine_iff, fun hflag => ?_, fun o values ho hvalues => ?_⟩
  · have hmem := hm.pristine_iff.1 hflag
    exact ⟨hm.lowest.mem_iff.1 hmem, hm.bottom hmem⟩
  · obtain rfl := Run.results_of_advance ho hvalues
    have hmachine : m = o.machine := congrArg Run.machineOf ho
    exact hmachine ▸ hm.results

end StackMachine
