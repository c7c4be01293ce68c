import Mathlib

/-!
# Results, computations, arrays and lists

What a successful result that was mapped or bound comes from, what a computation does after another,
what is in an array after it was changed, changes of elements that were mapped before, and where a
list is cut.
-/

namespace StackMachine

/-! ## Results -/

section

variable {ε α β : Type} {x : Except ε α} {y : β}

/-- A result that was mapped comes from one before. -/
theorem exists_of_map_ok {f : α → β} (h : x.map f = .ok y) : ∃ z, x = .ok z ∧ f z = y := by
  cases x with
  | error e => contradiction
  | ok z => exact ⟨z, rfl, Except.ok.inj h⟩

/-- Errors are not mapped. -/
theorem map_eq_error_iff {f : α → β} {e : ε} : x.map f = .error e ↔ x = .error e := by
  cases x with
  | error e' => exact ⟨fun h => congrArg _ (Except.error.inj h), fun h => h ▸ rfl⟩
  | ok y => exact ⟨nofun, nofun⟩

/-- Only errors are changed. -/
theorem mapError_eq_ok_iff {ε' : Type} {f : ε → ε'} {z : α} :
    x.mapError f = .ok z ↔ x = .ok z := by
  cases x with
  | error e => exact ⟨nofun, nofun⟩
  | ok w => exact ⟨fun h => congrArg _ (Except.ok.inj h), fun h => congrArg _ (Except.ok.inj h)⟩

/-- A result that was bound comes from one before. -/
theorem exists_of_bind_ok {f : α → Except ε β} (h : x >>= f = .ok y) :
    ∃ z, x = .ok z ∧ f z = .ok y := by
  cases x with
  | error e => contradiction
  | ok z => exact ⟨z, rfl, h⟩

/-- An error of a result that was bound is met before it is bound or after. -/
theorem bind_eq_error {e : ε} {f : α → Except ε β} (h : x >>= f = .error e) :
    x = .error e ∨ ∃ z, x = .ok z ∧ f z = .error e := by
  cases x with
  | error e' => exact .inl (congrArg _ (Except.error.inj h))
  | ok z => exact .inr ⟨z, rfl, h⟩

/-- What holds at the start and is kept on the way through a list holds at the end. -/
theorem foldlM_preserves {f : β → α → Except ε β} {P : β → Prop} {xs : List α} {start : β}
    (hstart : P start) (hstep : ∀ z x z', x ∈ xs → P z → f z x = .ok z' → P z')
    (h : xs.foldlM f start = .ok y) : P y := by
  induction xs generalizing start with
  | nil =>
    obtain rfl := Except.ok.inj h
    exact hstart
  | cons x xs ih =>
    rw [List.foldlM_cons] at h
    obtain ⟨z, hz, h⟩ := exists_of_bind_ok h
    refine ih (hstep start x z List.mem_cons_self hstart hz) (fun w x' w' hx' => ?_) h
    exact hstep w x' w' (List.mem_cons_of_mem x hx')

/-- An error on the way through a list is met at one of its members. -/
theorem exists_of_foldlM_error {e : ε} {f : β → α → Except ε β} {xs : List α} {start : β}
    (h : xs.foldlM f start = .error e) :
    ∃ before y after z, xs = before ++ y :: after ∧ before.foldlM f start = .ok z ∧
      f z y = .error e := by
  induction xs generalizing start with
  | nil => contradiction
  | cons y xs ih =>
    rw [List.foldlM_cons] at h
    rcases bind_eq_error h with hy | ⟨next, hnext, h⟩
    · exact ⟨[], y, xs, start, rfl, rfl, hy⟩
    · obtain ⟨before, y', after, z, rfl, hbefore, hy⟩ := ih h
      refine ⟨y :: before, y', after, z, rfl, ?_, hy⟩
      rw [List.foldlM_cons, hnext]
      exact hbefore

end

/-! ## Computations on a state that may fail -/

section

variable {ε σ α β : Type} {x : EStateM ε σ α} {f : α → EStateM ε σ β} {s t : σ}

/-- A computation goes on after one that succeeds. -/
theorem bind_of_ok {a : α} (h : x s = .ok a t) : (x >>= f) s = f a t := by
  show EStateM.bind x f s = f a t
  rw [EStateM.bind, h]

/-- An error is kept, and the state that it was met in. -/
theorem bind_of_error {e : ε} (h : x s = .error e t) : (x >>= f) s = .error e t := by
  show EStateM.bind x f s = .error e t
  rw [EStateM.bind, h]

end

/-! ## Members of arrays -/

variable {α : Type} {xs : Array α} {i : Nat} {x : α}

theorem mem_of_mem_modify {f : α → α} (h : x ∈ xs.modify i f) : x ∈ xs ∨ ∃ y ∈ xs, x = f y := by
  obtain ⟨j, hj, rfl⟩ := Array.mem_iff_getElem.1 h
  rw [Array.size_modify] at hj
  rw [Array.getElem_modify]
  split
  · exact Or.inr ⟨_, Array.getElem_mem hj, rfl⟩
  · exact Or.inl (Array.getElem_mem hj)

theorem mem_of_mem_setIfInBounds {y : α} (h : x ∈ xs.setIfInBounds i y) : x ∈ xs ∨ x = y := by
  unfold Array.setIfInBounds at h
  split at h
  · exact Array.mem_or_eq_of_mem_set h
  · exact Or.inl h

theorem mem_of_mem_eraseIdxIfInBounds (h : x ∈ xs.eraseIdxIfInBounds i) : x ∈ xs := by
  unfold Array.eraseIdxIfInBounds at h
  split at h
  · exact Array.mem_of_mem_eraseIdx h
  · exact h

theorem mem_of_mem_extract {j : Nat} (h : x ∈ xs.extract i j) : x ∈ xs := by
  obtain ⟨k, hk, rfl⟩ := Array.mem_extract_iff_getElem.1 h
  exact Array.getElem_mem _

theorem mem_of_mem_pop (h : x ∈ xs.pop) : x ∈ xs := by
  rw [← Array.mem_toList_iff, Array.toList_pop] at h
  exact Array.mem_toList_iff.1 (List.dropLast_subset _ h)

theorem mem_of_mem_shrink (h : x ∈ xs.shrink i) : x ∈ xs := by
  rw [Array.shrink_eq_take] at h
  exact mem_of_mem_extract h

/-! ## Elements that were mapped -/

theorem modify_id (xs : Array α) (i : Nat) : xs.modify i id = xs := by
  refine Array.ext_getElem? fun j => ?_
  rw [Array.getElem?_modify]
  split <;> simp

/-- Leaving out an element and mapping the others. -/
theorem map_eraseIdxIfInBounds {β : Type} (f : α → β) (xs : Array α) (i : Nat) :
    (xs.eraseIdxIfInBounds i).map f = (xs.map f).eraseIdxIfInBounds i :=
  Array.ext' (by simp [List.eraseIdx_map])

/-- A change of one element, behind other elements and after all were mapped. -/
theorem modify_append_map {α β : Type} {f : α → β} {g : α → α} {g' : β → β}
    (hg : ∀ x, g' (f x) = f (g x)) (xs : Array β) (ys : Array α) (i : Nat) :
    (xs ++ ys.map f).modify (xs.size + i) g' = xs ++ (ys.modify i g).map f := by
  refine Array.ext_getElem? fun place => ?_
  rw [Array.getElem?_modify]
  by_cases hplace : place < xs.size
  · rw [Array.getElem?_append_left hplace, Array.getElem?_append_left hplace,
      if_neg (by omega)]
  · obtain ⟨k, rfl⟩ := Nat.exists_eq_add_of_le (Nat.not_lt.1 hplace)
    rw [Array.getElem?_append_right (by omega), Array.getElem?_append_right (by omega),
      Array.getElem?_map, Array.getElem?_map, Array.getElem?_modify, Nat.add_sub_cancel_left]
    by_cases hk : i = k
    · subst hk
      simp [Function.comp_def, hg]
    · simp [hk]

/-- What is looked for at elements that were mapped is found, and mapped itself. -/
theorem mapM_map {α β γ δ : Type} {f : α → β} {p : γ → δ} {g : α → Option γ}
    {g' : β → Option δ} (hg : ∀ x, g' (f x) = (g x).map p) (xs : List α) :
    (xs.map f).mapM g' = (xs.mapM g).map (List.map p) := by
  induction xs with
  | nil => rfl
  | cons x xs ih =>
    rw [List.map_cons, List.mapM_cons, List.mapM_cons, hg, ih]
    cases g x <;> cases xs.mapM g <;> rfl

/-! ## Lists that are cut -/

/-- A list is cut where the first element fails a test. -/
theorem takeWhile_append_cons {α : Type} {p : α → Bool} {xs : List α} (hxs : ∀ x ∈ xs, p x)
    {y : α} (hy : p y = false) (ys : List α) :
    (xs ++ y :: ys).takeWhile p = xs ∧ (xs ++ y :: ys).dropWhile p = y :: ys := by
  constructor
  · rw [List.takeWhile_append_of_pos hxs, List.takeWhile_cons_of_neg (by simp [hy]),
      List.append_nil]
  · rw [List.dropWhile_append_of_pos hxs, List.dropWhile_cons_of_neg (by simp [hy])]

end StackMachine
