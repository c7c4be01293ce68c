import StackMachine.Proofs.Prelude
import StackMachine.Proofs.Value.Keys
import StackMachine.Value.Equality

/-!
# Where values differ

Two values are unequal exactly when a pair that clashes on the spot can be reached from them
through items of arrays and matching entries of tables. A comparison that meets a pair again on the
way down takes it for equal; that hides nothing, because whatever differs below that pair is nearer
to where the pair was entered than to where it is met again.

So equality is the coarsest relation that takes no pair which clashes and no pair without the pairs
below it.
-/

namespace StackMachine

/-- Scalars that are equal are of one kind. -/
theorem Scalar.tag_eq_of_equals {s t : Scalar} (hst : s.equals t = true) : s.tag = t.tag := by
  cases s <;> cases t <;> first | rfl | contradiction

/-- A scalar is of another kind than a container. -/
theorem Scalar.tag_ne_tag (s : Scalar) (r : Ref) : s.tag ≠ r.tag := by
  cases s <;> cases r <;> simp [Scalar.tag, Ref.tag]

/-- The place that a table finds for a key has an entry with an equal key. -/
theorem Table.exists_of_position?_eq_some {t : Table} {k : Scalar} {n : Nat}
    (hn : t.position? k = some n) : ∃ e, t.entries[n]? = some e ∧ e.key.equals k = true := by
  rw [← StoredTable.position?_ofTable] at hn
  obtain ⟨e, he, hequals⟩ := StoredTable.exists_of_position?_eq_some KeyIndex.exact_scan hn
  rw [StoredTable.ofTable, List.getElem?_map] at he
  obtain ⟨e', he', rfl⟩ := Option.map_eq_some_iff.1 he
  exact ⟨e', he', hequals⟩

/-- An entry is found at the place of its key. -/
theorem Table.find?_eq_some_iff {t : Table} {k : Scalar} {o : Entry} :
    t.find? k = some o ↔ ∃ n, t.position? k = some n ∧ t.entries[n]? = some o :=
  Option.bind_eq_some_iff

/-- No entry is found exactly where a key has no place. -/
theorem Table.find?_eq_none_iff {t : Table} {k : Scalar} :
    t.find? k = none ↔ t.position? k = none := by
  constructor
  · intro hnone
    cases hn : t.position? k with
    | none => rfl
    | some n =>
      obtain ⟨e, he, -⟩ := exists_of_position?_eq_some hn
      rw [find?_eq_some_iff.2 ⟨n, hn, he⟩] at hnone
      contradiction
  · intro hn
    rw [find?, hn]
    rfl

namespace Heap

variable {h : Heap}

/-! ## Pairs that clash and the pairs below a pair -/

/-- Two values that differ on the spot: they are of different kinds, or unequal scalars, or two
containers of different sizes, or two tables the first of which has a key that has no place in the
second. -/
inductive Clash (h : Heap) : Value × Value → Prop
  | tags {a b : Value} (hne : a.tag ≠ b.tag) : Clash h (a, b)
  | scalars {s t : Scalar} (hne : s.equals t = false) : Clash h (.scalar s, .scalar t)
  | items {i j : Nat} (hij : i ≠ j) (hne : (h.items i).size ≠ (h.items j).size) :
    Clash h (.array i, .array j)
  | entries {i j : Nat} (hij : i ≠ j)
    (hne : (h.tableAt i).entries.length ≠ (h.tableAt j).entries.length) :
    Clash h (.table i, .table j)
  | missing {i j : Nat} (hij : i ≠ j) {e : Entry} (he : e ∈ (h.tableAt i).entries)
    (hnone : (h.tableAt j).position? e.key = none) : Clash h (.table i, .table j)

/-- A pair and a pair one place below it: the items at one place of two arrays, or the value of an
entry of a table and that of the entry at the place of its key in another table. -/
inductive Below (h : Heap) : Value × Value → Value × Value → Prop
  | item {i j k : Nat} (hij : i ≠ j) {x y : Value} (hx : (h.items i)[k]? = some x)
    (hy : (h.items j)[k]? = some y) : Below h (.array i, .array j) (x, y)
  | entry {i j n : Nat} (hij : i ≠ j) {e o : Entry} (he : e ∈ (h.tableAt i).entries)
    (hn : (h.tableAt j).position? e.key = some n) (ho : (h.tableAt j).entries[n]? = some o) :
    Below h (.table i, .table j) (e.value, o.value)

/-- Where an array or a table clashes with another one there are no parts to compare. -/
theorem paired?_eq_none_iff {r s : Ref} (hne : r ≠ s) :
    h.paired? r s = none ↔ h.Clash (.ref r, .ref s) := by
  constructor
  · intro hnone
    cases r with
    | array i =>
      cases s with
      | table j => exact .tags Tag.noConfusion
      | array j =>
        rw [paired?] at hnone
        split at hnone
        · contradiction
        · next hsize => exact .items (by simpa using hne) hsize
    | table i =>
      cases s with
      | array j => exact .tags Tag.noConfusion
      | table j =>
        have hij : i ≠ j := by simpa using hne
        rw [paired?] at hnone
        split at hnone
        · obtain ⟨e, he, hnone⟩ := mapM_eq_none_iff.1 hnone
          exact .missing hij he (Table.find?_eq_none_iff.1 (Option.map_eq_none_iff.1 hnone))
        · next hlength => exact .entries hij hlength
  · intro hclash
    cases hclash with
    | tags hne => cases r <;> cases s <;> first | rfl | exact absurd rfl hne
    | items hij hsize => rw [paired?, if_neg hsize]
    | entries hij hlength => rw [paired?, if_neg hlength]
    | missing hij he hnone =>
      rw [paired?]
      split
      · refine mapM_eq_none_iff.2 ⟨_, he, ?_⟩
        rw [Table.find?_eq_none_iff.2 hnone, Option.map_none]
      · rfl

/-- The parts that are compared are the pairs below. -/
theorem mem_paired?_iff {r s : Ref} (hne : r ≠ s) {pairs : List (Value × Value)}
    (hp : h.paired? r s = some pairs) {q : Value × Value} :
    q ∈ pairs ↔ h.Below (.ref r, .ref s) q := by
  cases r with
  | array i =>
    cases s with
    | table j => contradiction
    | array j =>
      have hij : i ≠ j := by simpa using hne
      rw [paired?] at hp
      split at hp
      · obtain rfl := Option.some.inj hp
        rw [List.mem_iff_getElem?]
        constructor
        · rintro ⟨k, hk⟩
          obtain ⟨hx, hy⟩ := List.getElem?_zip_eq_some.1 hk
          exact .item hij (by simpa using hx) (by simpa using hy)
        · rintro ⟨-, hx, hy⟩
          exact ⟨_, List.getElem?_zip_eq_some.2 ⟨by simpa using hx, by simpa using hy⟩⟩
      · contradiction
  | table i =>
    cases s with
    | array j => contradiction
    | table j =>
      have hij : i ≠ j := by simpa using hne
      rw [paired?] at hp
      split at hp
      · rw [mem_iff_of_mapM_eq_some hp]
        constructor
        · rintro ⟨e, he, hq⟩
          obtain ⟨o, hfound, rfl⟩ := Option.map_eq_some_iff.1 hq
          obtain ⟨n, hn, ho⟩ := Table.find?_eq_some_iff.1 hfound
          exact .entry hij he hn ho
        · intro hq
          cases hq with
          | entry hij he hn ho =>
            refine ⟨_, he, ?_⟩
            rw [Table.find?_eq_some_iff.2 ⟨_, hn, ho⟩]
            rfl
      · contradiction

/-- Only two containers, and not one container twice, have pairs below them. -/
theorem Below.refs {p q : Value × Value} (hq : h.Below p q) :
    ∃ r s, r ≠ s ∧ p = (.ref r, .ref s) := by
  cases hq with
  | item hij hx hy => exact ⟨_, _, by simpa using hij, rfl⟩
  | entry hij he hn ho => exact ⟨_, _, by simpa using hij, rfl⟩

/-- A container does not clash with itself. -/
theorem Clash.refs_ne {r s : Ref} (hclash : h.Clash (.ref r, .ref s)) : r ≠ s := by
  rintro rfl
  cases hclash <;> contradiction

/-! ## Distances to a clash -/

/-- A pair that clashes can be reached from a pair in so many steps down. -/
inductive DiffersWithin (h : Heap) : Nat → Value × Value → Prop
  | clash {p : Value × Value} (hp : h.Clash p) : DiffersWithin h 0 p
  | step {n : Nat} {p q : Value × Value} (hq : h.Below p q) (hn : DiffersWithin h n q) :
    DiffersWithin h (n + 1) p

theorem exists_differsWithin_iff {p : Value × Value} :
    (∃ n, h.DiffersWithin n p) ↔ ∃ q, Relation.ReflTransGen h.Below p q ∧ h.Clash q := by
  constructor
  · rintro ⟨n, hn⟩
    induction hn with
    | clash hp => exact ⟨_, .refl, hp⟩
    | step hq _ ih =>
      obtain ⟨q, hpath, hclash⟩ := ih
      exact ⟨q, .head hq hpath, hclash⟩
  · rintro ⟨q, hpath, hclash⟩
    induction hpath using Relation.ReflTransGen.head_induction_on with
    | refl => exact ⟨0, .clash hclash⟩
    | head hq _ ih =>
      obtain ⟨n, hn⟩ := ih
      exact ⟨n + 1, .step hq hn⟩

/-- **A comparison finds no difference where there is none**, whatever is taken for equal. -/
theorem exists_differsWithin_of_equalsIn {active : List (Ref × Ref)} {a b : Value}
    (hab : h.equalsIn active a b = false) : ∃ n, h.DiffersWithin n (a, b) := by
  induction active, a, b using equalsIn.induct h with
  | case1 active s t =>
    rw [equalsIn] at hab
    exact ⟨0, .clash (.scalars hab)⟩
  | case2 active r => simp [equalsIn] at hab
  | case3 active r s hne hactive => simp [equalsIn, hne, hactive] at hab
  | case4 active r s hne hactive hnone =>
    exact ⟨0, .clash ((paired?_eq_none_iff hne).1 hnone)⟩
  | case5 active r s hne hactive pairs hp ih =>
    rw [equalsIn_ref hne hactive, hp, Option.any_some, List.all_eq_false] at hab
    obtain ⟨q, hq, hdiffers⟩ := hab
    obtain ⟨n, hn⟩ := ih q.1 q.2 hq (by simpa using hdiffers)
    exact ⟨n + 1, .step ((mem_paired?_iff hne hp).1 hq) hn⟩
  | case6 active a b hscalars hrefs =>
    refine ⟨0, .clash (.tags ?_)⟩
    rcases a with s | r <;> rcases b with t | r'
    · exact absurd rfl (hscalars s t rfl)
    · exact s.tag_ne_tag r'
    · exact (t.tag_ne_tag r).symm
    · exact absurd rfl (hrefs r r' rfl)

/-- **What is taken for equal hides no difference** that is nearer to the pair than to every pair
which is being compared. The induction is on the distance of the pair from a clash, which is the
smallest one: the pair itself then hides nothing from the pair below it on a shortest way. -/
theorem DiffersWithin.equalsIn_eq_false {n : Nat} {a b : Value} (hn : h.DiffersWithin n (a, b))
    (hleast : ∀ m < n, ¬h.DiffersWithin m (a, b)) {active : List (Ref × Ref)}
    (hactive : ∀ r s, (r, s) ∈ active → ∀ m ≤ n, ¬h.DiffersWithin m (.ref r, .ref s)) :
    h.equalsIn active a b = false := by
  induction n generalizing a b active with
  | zero =>
    obtain ⟨hclash⟩ := hn
    rcases a with s | r <;> rcases b with t | r'
    · cases hclash with
      | tags hne =>
        rw [equalsIn]
        by_contra hequals
        exact hne (Scalar.tag_eq_of_equals (Bool.not_eq_false _ ▸ hequals))
      | scalars hne => rwa [equalsIn]
    · simp [equalsIn]
    · simp [equalsIn]
    · have hnew : (r, r') ∉ active := fun hmem => hactive r r' hmem 0 le_rfl (.clash hclash)
      rw [equalsIn_ref hclash.refs_ne hnew, (paired?_eq_none_iff hclash.refs_ne).2 hclash]
      rfl
  | succ n ih =>
    cases hn with
    | step hq hn =>
      obtain ⟨r, s, hne, hrefs⟩ := hq.refs
      obtain ⟨rfl, rfl⟩ := Prod.mk.inj hrefs
      have hnew : (r, s) ∉ active := fun hmem =>
        hactive r s hmem (n + 1) le_rfl (.step hq hn)
      rw [equalsIn_ref hne hnew]
      cases hp : h.paired? r s with
      | none => rfl
      | some pairs =>
        rw [Option.any_some, List.all_eq_false]
        refine ⟨_, (mem_paired?_iff hne hp).2 hq, ?_⟩
        rw [Bool.not_eq_true]
        refine ih hn (fun m hm hm' => ?_) (fun r' s' hmem m hm hm' => ?_)
        · exact hleast (m + 1) (by omega) (.step hq hm')
        · rcases List.mem_cons.1 hmem with heq | hmem
          · obtain ⟨rfl, rfl⟩ := Prod.mk.inj heq
            exact hleast m (by omega) hm'
          · exact hactive r' s' hmem m (by omega) hm'

theorem equals_eq_false_iff {a b : Value} :
    h.equals a b = false ↔ ∃ n, h.DiffersWithin n (a, b) := by
  constructor
  · exact exists_differsWithin_of_equalsIn
  · intro hdiffers
    classical
    exact (Nat.find_spec hdiffers).equalsIn_eq_false (fun m hm => Nat.find_min hdiffers hm)
      (fun r s hmem => absurd hmem List.not_mem_nil)

/-! ## The coarsest consistent relation -/

/-- A relation that takes no pair which clashes, and with a pair all pairs below it. -/
structure Consistent (h : Heap) (R : Value × Value → Prop) : Prop where
  agree : ∀ {p}, R p → ¬h.Clash p
  below : ∀ {p q}, R p → h.Below p q → R q

theorem Consistent.not_differsWithin {R : Value × Value → Prop} (hR : h.Consistent R) {n : Nat}
    {p : Value × Value} (hp : R p) : ¬h.DiffersWithin n p := by
  intro hn
  induction hn with
  | clash hclash => exact hR.agree hp hclash
  | step hq _ ih => exact ih (hR.below hp hq)

theorem consistent_equals : h.Consistent fun p => h.equals p.1 p.2 = true where
  agree := by
    intro p hp hclash
    rw [equals_eq_false_iff.2 ⟨0, .clash hclash⟩] at hp
    contradiction
  below := by
    intro p q hp hq
    by_contra hdiffers
    obtain ⟨n, hn⟩ := equals_eq_false_iff.1 (Bool.not_eq_true _ ▸ hdiffers)
    rw [equals_eq_false_iff.2 ⟨n + 1, .step hq hn⟩] at hp
    contradiction

/-- **Equality is the coarsest consistent relation.** In every heap, with whatever is shared and
whatever reaches itself, two values are unequal exactly when a pair that clashes can be reached from
them; what is taken for equal on the way hides nothing. Equality is consistent, and it holds
wherever any consistent relation does. -/
theorem equals_coarsest_consistent (h : Heap) :
    (∀ a b, h.equals a b = false ↔
      ∃ q, Relation.ReflTransGen h.Below (a, b) q ∧ h.Clash q) ∧
    h.Consistent (fun p => h.equals p.1 p.2 = true) ∧
    ∀ R, h.Consistent R → ∀ a b, R (a, b) → h.equals a b = true := by
  refine ⟨fun a b => equals_eq_false_iff.trans exists_differsWithin_iff, consistent_equals, ?_⟩
  intro R hR a b hab
  by_contra hdiffers
  obtain ⟨n, hn⟩ := equals_eq_false_iff.1 (Bool.not_eq_true _ ▸ hdiffers)
  exact hR.not_differsWithin hab hn

end Heap
end StackMachine
