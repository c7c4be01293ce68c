import StackMachine.Value.Heap

/-!
# Structural equality

Two values are equal when no difference can be reached from them. While two containers are being
compared they count as equal, so the comparison of cyclic data ends: every pair of containers is
entered once on the way down.
-/

namespace StackMachine.Heap

/-! ## The parts that correspond -/

/-- The pairs of parts that must be equal for two containers to be equal, or nothing when they
differ at once: they are of different kinds or sizes, or a key of the first is missing in the
second. -/
def paired? (h : Heap) : Ref → Ref → Option (List (Value × Value))
  | .array i, .array j =>
    if (h.items i).size = (h.items j).size then
      some ((h.items i).toList.zip (h.items j).toList)
    else
      none
  | .table i, .table j =>
    if (h.tableAt i).entries.length = (h.tableAt j).entries.length then
      (h.tableAt i).entries.mapM fun e =>
        ((h.tableAt j).find? e.key).map fun o => (e.value, o.value)
    else
      none
  | _, _ => none

/-- What is found for a list is what is found for its members. -/
theorem mem_iff_of_mapM_eq_some {α β : Type} {f : α → Option β} {xs : List α} {ys : List β}
    (hm : xs.mapM f = some ys) {y : β} : y ∈ ys ↔ ∃ x ∈ xs, f x = some y := by
  induction xs generalizing ys with
  | nil => simp_all
  | cons x xs ih =>
    simp only [List.mapM_cons, Option.bind_eq_bind, Option.bind_eq_some_iff, Option.pure_def,
      Option.some.injEq] at hm
    obtain ⟨z, hz, zs, hzs, rfl⟩ := hm
    simp [ih hzs, hz, eq_comm]

theorem mapM_eq_none_iff {α β : Type} {f : α → Option β} {xs : List α} :
    xs.mapM f = none ↔ ∃ x ∈ xs, f x = none := by
  induction xs with
  | nil => simp
  | cons x xs ih => cases hx : f x <;> cases hxs : xs.mapM f <;> simp_all [List.mapM_cons]

theorem mem_refs_of_paired? {h : Heap} {r s : Ref} {pairs : List (Value × Value)}
    (hp : h.paired? r s = some pairs) {pair : Value × Value} (hm : pair ∈ pairs) :
    r ∈ h.refs ∧ s ∈ h.refs := by
  cases r with
  | array i =>
    cases s with
    | table j => simp [paired?] at hp
    | array j =>
      simp only [paired?] at hp
      split at hp
      · obtain rfl := Option.some.inj hp
        obtain ⟨x, y⟩ := pair
        have hx := (List.of_mem_zip hm).1
        have hy := (List.of_mem_zip hm).2
        constructor
        · by_cases hi : i < h.arrays.size
          · exact array_mem_refs hi
          · simp [items_eq_empty hi] at hx
        · by_cases hj : j < h.arrays.size
          · exact array_mem_refs hj
          · simp [items_eq_empty hj] at hy
      · simp at hp
  | table i =>
    cases s with
    | array j => simp [paired?] at hp
    | table j =>
      simp only [paired?] at hp
      split at hp
      · obtain ⟨e, he, hfound⟩ := (mem_iff_of_mapM_eq_some hp).1 hm
        constructor
        · by_cases hi : i < h.tables.size
          · exact table_mem_refs hi
          · simp [tableAt_eq_empty hi] at he
        · by_cases hj : j < h.tables.size
          · exact table_mem_refs hj
          · simp [tableAt_eq_empty hj, Table.find?] at hfound
      · simp at hp

/-! ## Pairs that were not yet entered -/

/-- Every pair of containers of the heap. -/
def refPairs (h : Heap) : List (Ref × Ref) :=
  h.refs.flatMap fun r => h.refs.map fun s => (r, s)

theorem mem_refPairs {h : Heap} {r s : Ref} : (r, s) ∈ h.refPairs ↔ r ∈ h.refs ∧ s ∈ h.refs := by
  simp [refPairs]

/-- How many pairs of containers are not being compared. -/
def freshCount (h : Heap) (active : List (Ref × Ref)) : Nat :=
  h.refPairs.countP (· ∉ active)

theorem freshCount_cons_lt {h : Heap} {p : Ref × Ref} {active : List (Ref × Ref)}
    (hp : p ∈ h.refPairs) (hc : p ∉ active) :
    h.freshCount (p :: active) < h.freshCount active := by
  unfold freshCount
  generalize h.refPairs = pairs at hp
  induction pairs with
  | nil => simp at hp
  | cons q pairs ih =>
    have hle : pairs.countP (· ∉ p :: active) ≤ pairs.countP (· ∉ active) :=
      List.countP_mono_left (by simp)
    by_cases hqp : q = p
    · subst hqp
      simp [hc] at hle ⊢
      omega
    · have hlt := ih (by simpa [Ne.symm hqp] using hp)
      by_cases hq : q ∈ active <;> simp [hq, hqp] at hlt ⊢ <;> omega

/-! ## Equality -/

/-- Whether two values are equal when the pairs that are being compared count as equal. -/
def equalsIn (h : Heap) (active : List (Ref × Ref)) (a b : Value) : Bool :=
  match a, b with
  | .scalar s, .scalar t => s.equals t
  | .ref r, .ref s =>
    if r = s then true
    else if hc : (r, s) ∈ active then true
    else
      match hp : h.paired? r s with
      | none => false
      | some pairs => pairs.attach.all fun ⟨(x, y), hm⟩ =>
        have := freshCount_cons_lt (mem_refPairs.2 (mem_refs_of_paired? hp hm)) hc
        h.equalsIn ((r, s) :: active) x y
  | _, _ => false
termination_by h.freshCount active

/-- Two containers are equal when their parts are, pair by pair. -/
theorem equalsIn_ref {h : Heap} {active : List (Ref × Ref)} {r s : Ref} (hne : r ≠ s)
    (hactive : (r, s) ∉ active) :
    h.equalsIn active (.ref r) (.ref s) = (h.paired? r s).any fun pairs =>
      pairs.all fun pair => h.equalsIn ((r, s) :: active) pair.1 pair.2 := by
  rw [equalsIn, if_neg hne, dif_neg hactive]
  split
  · next hp => simp [hp]
  · next pairs hp =>
    have hpairs (same : Value × Value → Bool) :
        pairs.attach.all (same ∘ Subtype.val) = pairs.all same := by
      rw [← List.all_map, List.attach_map_subtype_val]
    simp only [hp, Option.any_some, ← hpairs]
    rfl

/-- Structural equality of values. -/
def equals (h : Heap) (a b : Value) : Bool := h.equalsIn [] a b

end StackMachine.Heap
