import StackMachine.Proofs.Prelude
import StackMachine.Value.Access

/-!
# What the scalars of a heap meet

A predicate on scalars, carried over to values, tables and heaps: a heap meets it when every scalar
in an array, every key, every value and every prototype of a table does. References meet any
predicate, for what they refer to is in the heap. Reading gives values that meet it, and writing
such values and deleting keep it.
-/

namespace StackMachine

variable {P : Scalar → Prop}

/-! ## Values and tables -/

/-- The scalar that a value is meets a predicate; references meet any. -/
def Value.Meets (P : Scalar → Prop) : Value → Prop
  | .scalar s => P s
  | .ref _ => True

/-- Every scalar of a table meets a predicate. -/
structure Table.Meets (P : Scalar → Prop) (t : Table) : Prop where
  keys : ∀ e ∈ t.entries, P e.key
  values : ∀ e ∈ t.entries, e.value.Meets P
  prototype : ∀ v, t.prototype = some v → v.Meets P

theorem Value.Meets.toKey {v : Value} (h : v.Meets P) {k : Scalar} (hk : v.toKey = .ok k) :
    P k := by
  cases v with
  | scalar s =>
    obtain rfl := Except.ok.inj hk
    exact h
  | ref r => contradiction

namespace Table

variable {t : Table}

theorem Meets.empty : Meets P {} := ⟨by simp, by simp, by simp⟩

theorem Meets.derived {v : Option Value} (h : ∀ w, v = some w → w.Meets P) :
    Meets P { prototype := v } := ⟨by simp, by simp, h⟩

/-- An entry that matches keeps its key and takes the new value; a new one has both. -/
theorem Meets.set (h : t.Meets P) {k : Scalar} {v : Value} (hk : P k) (hv : v.Meets P)
    (flags : Flags) : (t.set k v flags).Meets P := by
  unfold Table.set
  split
  -- The new entry may have another key than the given one, but that key was there before.
  · next i _ =>
    have hentry : ∀ e ∈ t.entries.modify i fun e => { e with value := v, flags },
        P e.key ∧ e.value.Meets P := by
      intro e he
      obtain ⟨j, hj⟩ := List.mem_iff_getElem?.1 he
      rw [List.getElem?_modify] at hj
      obtain ⟨old, hold, heq⟩ := Option.map_eq_some_iff.1 hj
      have hmem := List.mem_of_getElem? hold
      split at heq
      · rw [← heq]
        exact ⟨h.keys old hmem, hv⟩
      · obtain rfl : old = e := heq
        exact ⟨h.keys old hmem, h.values old hmem⟩
    exact ⟨fun e he => (hentry e he).1, fun e he => (hentry e he).2, h.prototype⟩
  · have hentry : ∀ e ∈ t.entries ++ [⟨k, v, flags⟩], P e.key ∧ e.value.Meets P := by
      intro e he
      rcases List.mem_append.1 he with he | he
      · exact ⟨h.keys e he, h.values e he⟩
      · obtain rfl := List.mem_singleton.1 he
        exact ⟨hk, hv⟩
    exact ⟨fun e he => (hentry e he).1, fun e he => (hentry e he).2, h.prototype⟩

theorem Meets.eraseAt (h : t.Meets P) (i : Nat) : (t.eraseAt i).Meets P where
  keys := fun e he => h.keys e (List.mem_of_mem_eraseIdx he)
  values := fun e he => h.values e (List.mem_of_mem_eraseIdx he)
  prototype := h.prototype

theorem Meets.find? (h : t.Meets P) {k : Scalar} {e : Entry} (he : t.find? k = some e) :
    e.value.Meets P := by
  obtain ⟨i, -, hi⟩ := Option.bind_eq_some_iff.1 he
  exact h.values e (List.mem_of_getElem? hi)

end Table

/-! ## Heaps -/

/-- Every scalar in the containers of a heap meets a predicate. -/
structure Heap.Meets (P : Scalar → Prop) (h : Heap) : Prop where
  arrays : ∀ items ∈ h.arrays, ∀ v ∈ items, v.Meets P
  tables : ∀ t ∈ h.tables, t.Meets P

namespace Heap

variable {h : Heap}

theorem Meets.empty : Meets P {} := ⟨by simp, by simp⟩

theorem Meets.items (hh : h.Meets P) (id : Nat) : ∀ v ∈ h.items id, v.Meets P := by
  intro v hv
  by_cases hid : id < h.arrays.size
  · rw [Heap.items, Array.getD, dif_pos hid] at hv
    exact hh.arrays _ (Array.getElem_mem hid) v hv
  · rw [items_eq_empty hid] at hv
    simp at hv

theorem Meets.tableAt (hh : h.Meets P) (id : Nat) : (h.tableAt id).Meets P := by
  by_cases hid : id < h.tables.size
  · rw [Heap.tableAt, Array.getD, dif_pos hid]
    exact hh.tables _ (Array.getElem_mem hid)
  · rw [tableAt_eq_empty hid]
    exact Table.Meets.empty

/-! ### Making and changing containers -/

theorem Meets.newArray (hh : h.Meets P) {items : Array Value} (hitems : ∀ v ∈ items, v.Meets P) :
    (h.newArray items).2.Meets P where
  arrays := by
    intro xs hxs
    rcases Array.mem_push.1 hxs with hxs | rfl
    · exact hh.arrays xs hxs
    · exact hitems
  tables := hh.tables

theorem Meets.newTable (hh : h.Meets P) {t : Table} (ht : t.Meets P) :
    (h.newTable t).2.Meets P where
  arrays := hh.arrays
  tables := by
    intro u hu
    rcases Array.mem_push.1 hu with hu | rfl
    · exact hh.tables u hu
    · exact ht

theorem Meets.modifyItems (hh : h.Meets P) (id : Nat) {f : Array Value → Array Value}
    (hf : ∀ xs : Array Value, (∀ v ∈ xs, v.Meets P) → ∀ v ∈ f xs, v.Meets P) :
    (h.modifyItems id f).Meets P where
  arrays := by
    intro xs hxs
    rcases mem_of_mem_modify hxs with hxs | ⟨ys, hys, rfl⟩
    · exact hh.arrays xs hxs
    · exact hf ys (hh.arrays ys hys)
  tables := hh.tables

theorem Meets.modifyTable (hh : h.Meets P) (id : Nat) {f : Table → Table}
    (hf : ∀ t : Table, t.Meets P → (f t).Meets P) : (h.modifyTable id f).Meets P where
  arrays := hh.arrays
  tables := by
    intro t ht
    rcases mem_of_mem_modify ht with ht | ⟨u, hu, rfl⟩
    · exact hh.tables t ht
    · exact hf u (hh.tables u hu)

/-! ### Indexed access -/

variable {container key v : Value}

theorem Meets.item (hh : h.Meets P) {id : Nat} (hv : h.item id key = .ok v) : v.Meets P := by
  obtain ⟨i, -, hitem⟩ := exists_of_bind_ok hv
  split at hitem
  · next w hw =>
    obtain rfl := Except.ok.inj hitem
    exact hh.items id w (Array.mem_of_getElem? hw)
  · contradiction

/-- What is found along a chain of prototypes, an array at its end included. -/
theorem Meets.lookupWithin (hh : h.Meets P) {links id : Nat} {k : Scalar}
    (hv : h.lookupWithin links id k = .ok v) : v.Meets P := by
  induction links generalizing id with
  | zero =>
    -- No table is followed any more, but the array that a prototype is may still be asked.
    unfold Heap.lookupWithin at hv
    split at hv
    · next e he =>
      obtain rfl := Except.ok.inj hv
      exact (hh.tableAt id).find? he
    · split at hv
      · contradiction
      · contradiction
      · exact hh.item hv
      · contradiction
  | succ links ih =>
    unfold Heap.lookupWithin at hv
    split at hv
    · next e he =>
      obtain rfl := Except.ok.inj hv
      exact (hh.tableAt id).find? he
    · split at hv
      · contradiction
      · contradiction
      · exact hh.item hv
      · exact ih hv

theorem Meets.get (hh : h.Meets P) (hv : h.get container key = .ok v) : v.Meets P := by
  unfold Heap.get at hv
  split at hv
  · contradiction
  · exact hh.item hv
  · obtain ⟨k, -, hlookup⟩ := exists_of_bind_ok hv
    exact hh.lookupWithin hlookup

theorem Meets.setItem (hh : h.Meets P) {id : Nat} {other : Heap} (hv : v.Meets P)
    (hset : h.setItem id key v = .ok other) : other.Meets P := by
  obtain ⟨i, -, hplace⟩ := exists_of_bind_ok hset
  dsimp only at hplace
  split at hplace
  · obtain rfl := Except.ok.inj hplace
    refine hh.modifyItems id fun xs hxs w hw => ?_
    rcases mem_of_mem_setIfInBounds hw with hw | rfl
    · exact hxs w hw
    · exact hv
  · split at hplace
    · obtain rfl := Except.ok.inj hplace
      refine hh.modifyItems id fun xs hxs w hw => ?_
      rcases Array.mem_push.1 hw with hw | rfl
      · exact hxs w hw
      · exact hv
    · contradiction

theorem Meets.setEntry (hh : h.Meets P) {id : Nat} {other : Heap} (hkey : key.Meets P)
    (hv : v.Meets P) {flags : Flags} (hset : h.setEntry id key v flags = .ok other) :
    other.Meets P := by
  obtain ⟨k, hk, hother⟩ := exists_of_bind_ok hset
  obtain rfl := Except.ok.inj hother
  exact hh.modifyTable id fun t ht => ht.set (hkey.toKey hk) hv flags

theorem Meets.set (hh : h.Meets P) {other : Heap} (hkey : key.Meets P) (hv : v.Meets P)
    (hset : h.set container key v = .ok other) : other.Meets P := by
  unfold Heap.set at hset
  split at hset
  · contradiction
  · exact hh.setItem hv hset
  · exact hh.setEntry hkey hv hset

theorem Meets.delete (hh : h.Meets P) {other : Heap}
    (hdelete : h.delete container key = .ok (v, other)) : other.Meets P := by
  unfold Heap.delete at hdelete
  split at hdelete
  · contradiction
  · obtain ⟨i, -, hitem⟩ := exists_of_bind_ok hdelete
    split at hitem
    · contradiction
    · obtain ⟨-, rfl⟩ := Prod.mk.inj (Except.ok.inj hitem)
      exact hh.modifyItems _ fun xs hxs w hw => hxs w (mem_of_mem_eraseIdxIfInBounds hw)
  · obtain ⟨k, -, hentry⟩ := exists_of_bind_ok hdelete
    split at hentry
    · contradiction
    · split at hentry
      · contradiction
      · obtain ⟨-, rfl⟩ := Prod.mk.inj (Except.ok.inj hentry)
        exact hh.modifyTable _ fun t ht => ht.eraseAt _

end Heap
end StackMachine
