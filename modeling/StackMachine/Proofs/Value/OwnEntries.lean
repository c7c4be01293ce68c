import StackMachine.Proofs.Value.Symmetry

/-!
# Own entries after a change

A table is nearly a map whose keys count as one when they are equal: a key that was set has its
value and flags, a key that was deleted has no entry, and other keys have what they had. Numbers
make exceptions, because a NaN equals nothing and two numbers that are not equal may both be near a
third one. What was set under a NaN is never found; a number that was deleted may be near another
key still; and two numbers that find one entry lose or change it together. These are all exceptions
(`own_entries_after_change`).
-/

namespace StackMachine

/-- The first element that meets a test is the same in a list from which another element is left
out. -/
theorem find?_eraseIdx_of_ne {α : Type} {p : α → Bool} {xs : List α} {i : Nat} {x : α}
    (hx : xs[i]? = some x) (hne : xs.find? p ≠ some x) :
    (xs.eraseIdx i).find? p = xs.find? p := by
  induction xs generalizing i with
  | nil => rfl
  | cons y ys ih =>
    cases i with
    | zero =>
      obtain rfl : y = x := by simpa using hx
      have hy : ¬p y = true := by
        intro hy
        exact hne (List.find?_cons_of_pos hy)
      rw [List.eraseIdx_cons_zero, List.find?_cons_of_neg hy]
    | succ i =>
      rw [List.eraseIdx_cons_succ]
      by_cases hy : p y = true
      · rw [List.find?_cons_of_pos hy, List.find?_cons_of_pos hy]
      · rw [List.find?_cons_of_neg hy] at hne
        rw [List.find?_cons_of_neg hy, List.find?_cons_of_neg hy]
        exact ih (by simpa using hx) hne

/-- A NaN equals nothing. -/
theorem Number.isNaN_of_equals {x y : Number} (h : x.equals y = true) : x.isNaN = false := by
  by_contra hnan
  rw [Bool.not_eq_false] at hnan
  have hfinite : x.isFinite = false := by
    rw [isNaN, Bool.and_eq_true, Bool.not_eq_true'] at hnan
    exact hnan.1
  simp [equals, hfinite, hnan] at h

/-- Only a NaN is not equal to itself. -/
theorem Scalar.equals_self_iff {k : Scalar} :
    k.equals k = true ↔ ∀ x, k = .number x → x.isNaN = false := by
  cases k with
  | number x =>
    constructor
    · rintro hself y ⟨⟩
      exact Number.isNaN_of_equals hself
    · intro hnan
      exact Number.equals_self (hnan x rfl)
  | _ => simp [equals]

/-- What is equal to anything is equal to itself. -/
theorem Scalar.equals_self_of_equals {k l : Scalar} (h : k.equals l = true) :
    k.equals k = true := by
  rw [equals_self_iff]
  rintro x rfl
  cases l with
  | number y => exact Number.isNaN_of_equals h
  | _ => contradiction

namespace Table

variable {t : Table} {k j : Scalar} {e : Entry} {i : Nat} {v : Value} {flags : Flags}

/-! ## Finding without places -/

/-- The entry of a key is the first one with an equal key and its hash; for a number that has none,
the first one with an equal key. -/
theorem find?_eq (t : Table) (k : Scalar) :
    t.find? k = (t.entries.find? fun e => e.key.equals k && e.key.hash == k.hash).or
      (match k with
      | .number _ => t.entries.find? fun e => e.key.equals k
      | _ => none) := by
  have hplace (p : Entry → Bool) :
      (t.entries.findIdx? p).bind (t.entries[·]?) = t.entries.find? p :=
    List.find?_eq_bind_findIdx?_getElem?.symm
  unfold find? position?
  rw [← hplace]
  cases hfirst : t.entries.findIdx? fun e => e.key.equals k && e.key.hash == k.hash with
  | some n =>
    obtain ⟨o, ho, -⟩ := exists_of_findIdx?_eq_some hfirst
    simp [ho]
  | none =>
    cases k with
    | number x => exact hplace _
    | nil | bool | string | function => rfl

/-- Where a key is found depends on the keys of the entries alone. -/
theorem position?_congr {u : Table} (h : t.entries.map Entry.key = u.entries.map Entry.key)
    (k : Scalar) : t.position? k = u.position? k := by
  have hkeys (p : Scalar → Bool) :
      t.entries.findIdx? (fun e => p e.key) = u.entries.findIdx? (fun e => p e.key) := by
    have hmap (xs : List Entry) :
        xs.findIdx? (fun e => p e.key) = (xs.map Entry.key).findIdx? p := by
      rw [List.findIdx?_map]
      rfl
    rw [hmap, hmap, h]
  unfold position?
  rw [hkeys fun l => l.equals k && l.hash == k.hash]
  cases k with
  | number x => rw [hkeys fun l => l.equals (.number x)]
  | nil | bool | string | function => rfl

/-- The entry that is found has an equal key. -/
theorem equals_of_find? (he : t.find? k = some e) : e ∈ t.entries ∧ e.key.equals k = true := by
  obtain ⟨n, hn, hplace⟩ := find?_eq_some_iff.1 he
  obtain ⟨o, ho, hequals⟩ := exists_of_position?_eq_some hn
  obtain rfl : e = o := Option.some.inj (hplace.symm.trans ho)
  exact ⟨List.mem_of_getElem? hplace, hequals⟩

/-! ## Setting -/

/-- **Setting a key that is found** changes the entry that it finds and no other. -/
theorem find?_set_of_position? (hi : t.position? k = some i) (j : Scalar) :
    (t.set k v flags).find? j =
      if t.position? j = some i then (t.find? j).map fun e => { e with value := v, flags }
      else t.find? j := by
  have hset : (t.set k v flags).entries =
      t.entries.modify i fun e => { e with value := v, flags } := by
    rw [set, hi]
  have hkeys : (t.set k v flags).entries.map Entry.key = t.entries.map Entry.key := by
    rw [hset]
    refine List.ext_getElem? fun n => ?_
    rw [List.getElem?_map, List.getElem?_map, List.getElem?_modify]
    split <;> cases t.entries[n]? <;> rfl
  rw [find?, find?, position?_congr hkeys, hset]
  cases hj : t.position? j with
  | none => simp
  | some n =>
    by_cases hn : n = i
    · subst hn
      simp [List.getElem?_modify]
    · simp [List.getElem?_modify, hn, Ne.symm hn]

theorem entries_set_of_none (hnone : t.position? k = none) :
    (t.set k v flags).entries = t.entries ++ [⟨k, v, flags⟩] := by
  rw [set, hnone]

/-- **Setting a key that is not found** does not matter to keys that are not equal to it. -/
theorem find?_set_of_none (hnone : t.position? k = none) (hne : k.equals j = false) :
    (t.set k v flags).find? j = t.find? j := by
  rw [find?_eq, find?_eq, entries_set_of_none hnone]
  cases j <;> simp [hne]

/-- A key that was not found and is equal to itself has a new entry. -/
theorem find?_set_self_of_none (hknows : t.KnowsKeys) (hnone : t.position? k = none)
    (hself : k.equals k = true) : (t.set k v flags).find? k = some ⟨k, v, flags⟩ := by
  have hmissing := hknows.missing k hnone
  have hfirst : (t.entries.find? fun e => e.key.equals k && e.key.hash == k.hash) = none := by
    rw [List.find?_eq_none]
    intro e he
    simp [hmissing e he]
  rw [find?_eq, entries_set_of_none hnone]
  simp [hfirst, hself]

/-! ## Keys that find one entry -/

/-- Two keys find one entry. -/
def Shared (t : Table) (k j : Scalar) : Prop := ∃ e, t.find? k = some e ∧ t.find? j = some e

theorem shared_of_position? (hi : t.position? k = some i) (hj : t.position? j = some i) :
    t.Shared k j := by
  obtain ⟨e, he, -⟩ := exists_of_position?_eq_some hi
  exact ⟨e, find?_eq_some_iff.2 ⟨i, hi, he⟩, find?_eq_some_iff.2 ⟨i, hj, he⟩⟩

/-- **After a key is set**, keys that are neither equal to it nor find the same entry have what they
had. -/
theorem find?_set_of_not_shared (hne : k.equals j = false) (hshared : ¬t.Shared k j) :
    (t.set k v flags).find? j = t.find? j := by
  cases hi : t.position? k with
  | none => exact find?_set_of_none hi hne
  | some i =>
    have hj : t.position? j ≠ some i := fun hj => hshared (shared_of_position? hi hj)
    rw [find?_set_of_position? hi, if_neg hj]

/-- Two keys that find one entry are equal unless both are numbers. -/
theorem Shared.numbers (h : t.Shared k j) (hne : k.equals j = false) :
    ∃ x y, k = .number x ∧ j = .number y := by
  obtain ⟨e, hk, hj⟩ := h
  have hek := (equals_of_find? hk).2
  have hej := (equals_of_find? hj).2
  cases hkey : e.key with
  | number z =>
    rw [hkey] at hek hej
    cases k <;> try contradiction
    cases j <;> try contradiction
    exact ⟨_, _, rfl, rfl⟩
  | _ =>
    -- Keys that are equal to a key which is no number are equal.
    rw [Scalar.equals_comm] at hek hej
    rw [Scalar.equals_of_equals hek hej (by rw [hkey]; exact nofun)] at hne
    contradiction

namespace KnowsKeys

variable (hknows : t.KnowsKeys)

include hknows

/-- One entry stands at one place. -/
theorem position?_of_find? (hi : t.entries[i]? = some e) (he : t.find? k = some e) :
    t.position? k = some i := by
  obtain ⟨n, hn, hplace⟩ := find?_eq_some_iff.1 he
  have hself : e.key.equals e.key = true :=
    Scalar.equals_self_of_equals (equals_of_find? he).2
  rw [hn, hknows.apart n i e e hplace hi hself]

/-- **A key that is no number** finds the only entry with an equal key. -/
theorem find?_of_equals (hnumber : ∀ x, k ≠ .number x) (he : e ∈ t.entries)
    (hequals : e.key.equals k = true) : t.find? k = some e := by
  cases hfound : t.find? k with
  | none =>
    rw [find?_eq_none_iff] at hfound
    rw [hknows.missing k hfound e he] at hequals
    contradiction
  | some o =>
    obtain ⟨ho, hequals'⟩ := equals_of_find? hfound
    obtain ⟨n, hn⟩ := List.mem_iff_getElem?.1 he
    obtain ⟨m, hm⟩ := List.mem_iff_getElem?.1 ho
    have hsame : e.key.equals o.key = true := Scalar.equals_of_equals hequals hequals' hnumber
    have hplace := hknows.apart n m e o hn hm hsame
    rw [hplace] at hn
    exact hm.symm.trans hn

/-! ## Deleting -/

/-- An entry that was left out is not found any more. -/
theorem find?_eraseAt_ne (hi : t.entries[i]? = some e) (j : Scalar) :
    (t.eraseAt i).find? j ≠ some e := by
  intro hfound
  obtain ⟨hmem, hequals⟩ := equals_of_find? hfound
  obtain ⟨n, hn, he⟩ := List.mem_eraseIdx_iff_getElem?.1 hmem
  exact hn (hknows.apart n i e e he hi (Scalar.equals_self_of_equals hequals))

/-- **A key that was deleted** is not found when no other entry has an equal key. -/
theorem find?_eraseAt_self_eq_none_iff (hrest : (t.eraseAt i).KnowsKeys)
    (hi : t.position? k = some i) :
    (t.eraseAt i).find? k = none ↔
      ∀ e ∈ t.entries, e.key.equals k = true → t.find? k = some e := by
  obtain ⟨o, ho, -⟩ := exists_of_position?_eq_some hi
  have hfound : t.find? k = some o := find?_eq_some_iff.2 ⟨i, hi, ho⟩
  constructor
  · intro hnone e he hequals
    obtain ⟨n, hn⟩ := List.mem_iff_getElem?.1 he
    by_cases hni : n = i
    · rw [hni] at hn
      rw [hfound, ← ho, hn]
    · have hmem : e ∈ (t.eraseAt i).entries := List.mem_eraseIdx_iff_getElem?.2 ⟨n, hni, hn⟩
      rw [hrest.missing k (find?_eq_none_iff.1 hnone) e hmem] at hequals
      contradiction
  · intro hall
    cases hkept : (t.eraseAt i).find? k with
    | none => rfl
    | some e =>
      obtain ⟨hmem, hequals⟩ := equals_of_find? hkept
      have he := hall e (List.mem_of_mem_eraseIdx hmem) hequals
      obtain rfl : o = e := Option.some.inj (hfound.symm.trans he)
      exact absurd hkept (hknows.find?_eraseAt_ne ho k)

end KnowsKeys

/-- **After a key is set** it has the value and the flags if it is equal to itself. -/
theorem exists_find?_set_self_iff (hknows : t.KnowsKeys) :
    (∃ key, (t.set k v flags).find? k = some ⟨key, v, flags⟩) ↔ k.equals k = true := by
  constructor
  · rintro ⟨key, hfound⟩
    have hequals := (equals_of_find? hfound).2
    rw [Scalar.equals_comm] at hequals
    exact Scalar.equals_self_of_equals hequals
  · intro hself
    cases hi : t.position? k with
    | none => exact ⟨k, find?_set_self_of_none hknows hi hself⟩
    | some i =>
      obtain ⟨e, he, -⟩ := exists_of_position?_eq_some hi
      refine ⟨e.key, ?_⟩
      rw [find?_set_of_position? hi, if_pos hi, find?_eq_some_iff.2 ⟨i, hi, he⟩]
      rfl

/-- **After a key is set**, a key that finds the same entry has the value and the flags too. -/
theorem find?_set_of_shared (hknows : t.KnowsKeys) (hshared : t.Shared k j) :
    ∃ key, (t.set k v flags).find? j = some ⟨key, v, flags⟩ := by
  obtain ⟨e, hk, hj⟩ := hshared
  obtain ⟨i, hi, he⟩ := find?_eq_some_iff.1 hk
  refine ⟨e.key, ?_⟩
  rw [find?_set_of_position? hi, if_pos (hknows.position?_of_find? he hj), hj]
  rfl

/-- Leaving out an entry does not matter to keys that find another one. -/
theorem find?_eraseAt_of_ne (hi : t.entries[i]? = some e) (hne : t.find? j ≠ some e) :
    (t.eraseAt i).find? j = t.find? j := by
  rw [find?_eq] at hne ⊢
  rw [find?_eq t j]
  cases hfirst : t.entries.find? fun e => e.key.equals j && e.key.hash == j.hash with
  | some o =>
    have hother := find?_eraseIdx_of_ne hi (p := fun e => e.key.equals j && e.key.hash == j.hash)
      (by simpa [hfirst] using hne)
    rw [eraseAt, hother, hfirst]
    rfl
  | none =>
    have hother := find?_eraseIdx_of_ne hi (p := fun e => e.key.equals j && e.key.hash == j.hash)
      (by simp [hfirst])
    rw [hfirst] at hne
    rw [eraseAt, hother, hfirst]
    cases j with
    | number x => exact find?_eraseIdx_of_ne hi hne
    | nil | bool | string | function => rfl

/-- **After a key is deleted**, exactly the keys that found the same entry have not what they had.
-/
theorem KnowsKeys.find?_eraseAt_eq_iff (hknows : t.KnowsKeys) (hi : t.position? k = some i)
    (he : t.entries[i]? = some e) (j : Scalar) :
    (t.eraseAt i).find? j = t.find? j ↔ ¬t.Shared k j := by
  have hk : t.find? k = some e := find?_eq_some_iff.2 ⟨i, hi, he⟩
  constructor
  · rintro hsame ⟨o, hk', hj⟩
    obtain rfl : e = o := Option.some.inj (hk.symm.trans hk')
    exact hknows.find?_eraseAt_ne he j (hsame.trans hj)
  · intro hshared
    exact find?_eraseAt_of_ne he fun hj => hshared ⟨e, hk, hj⟩

end Table

/-! ## Tables of a heap -/

namespace Heap

variable {h g : Heap} {id : Nat} {t : Table} {k : Scalar}

theorem own?_eq (ht : h.tables[id]? = some t) (k : Scalar) :
    h.own? id (.scalar k) = .ok (t.find? k) := by
  rw [← StoredTable.tableAt_of_getElem? ht]
  rfl

/-- A key that is deleted has a place; the table is left without it. -/
theorem deleteEntry_eq_ok (ht : h.tables[id]? = some t) {v : Value}
    (hdelete : h.deleteEntry id (.scalar k) = .ok (v, g)) :
    ∃ i e, t.position? k = some i ∧ t.entries[i]? = some e ∧ v = e.value ∧
      g.tables[id]? = some (t.eraseAt i) := by
  obtain ⟨l, hl, hentry⟩ := exists_of_bind_ok hdelete
  obtain rfl := Except.ok.inj hl
  rw [StoredTable.tableAt_of_getElem? ht] at hentry
  split at hentry
  · contradiction
  · next i hi =>
    split at hentry
    · contradiction
    · next e he =>
      obtain ⟨rfl, rfl⟩ := Prod.mk.inj (Except.ok.inj hentry)
      exact ⟨i, e, hi, he, rfl, StoredTable.getElem?_modifyTable ht _⟩

/-- **What a table has after a change.** In every table that is built by setting and deleting keys:

* a key that was set has its value and flags, unless it is a NaN; keys that are not equal to it have
  what they had, unless they find the same entry, and then they have the new value and flags too;
* a key that was deleted has no entry, unless another key of the table is equal to it; exactly the
  keys that found the same entry no longer have what they had.

Only numbers make exceptions: two keys that are not equal and find one entry are numbers, and a key
that is no number is equal to one key of the table at most. -/
theorem own_entries_after_change (ht : h.tables[id]? = some t) (hbuilt : t.Built) (k : Scalar) :
    (∀ value flags, ∃ g, h.setEntry id (.scalar k) value flags = .ok g ∧
      ((∃ key, g.own? id (.scalar k) = .ok (some ⟨key, value, flags⟩)) ↔
        ∀ x, k = .number x → x.isNaN = false) ∧
      ∀ j, k.equals j = false →
        (¬t.Shared k j → g.own? id (.scalar j) = h.own? id (.scalar j)) ∧
        (t.Shared k j → ∃ key, g.own? id (.scalar j) = .ok (some ⟨key, value, flags⟩))) ∧
    (∀ value g, h.deleteEntry id (.scalar k) = .ok (value, g) →
      (g.hasOwn id (.scalar k) = .ok false ↔
        ∀ e ∈ t.entries, e.key.equals k = true → t.find? k = some e) ∧
      ∀ j, g.own? id (.scalar j) = h.own? id (.scalar j) ↔ ¬t.Shared k j) ∧
    (∀ j, k.equals j = false → t.Shared k j → ∃ x y, k = .number x ∧ j = .number y) ∧
    ((∀ x, k ≠ .number x) →
      ∀ e ∈ t.entries, e.key.equals k = true → t.find? k = some e) := by
  have hknows := hbuilt.knowsKeys
  refine ⟨?_, ?_, fun j hne hshared => hshared.numbers hne,
    fun hnumber e he hequals => hknows.find?_of_equals hnumber he hequals⟩
  · intro value flags
    have hset := StoredTable.getElem?_modifyTable ht (·.set k value flags)
    refine ⟨_, rfl, ?_, ?_⟩
    · rw [own?_eq hset, ← Scalar.equals_self_iff]
      simp only [Except.ok.injEq]
      exact Table.exists_find?_set_self_iff hknows
    · intro j hne
      rw [own?_eq hset, own?_eq ht]
      simp only [Except.ok.injEq]
      exact ⟨Table.find?_set_of_not_shared hne, Table.find?_set_of_shared hknows⟩
  · intro value g hdelete
    obtain ⟨i, e, hi, he, -, hg⟩ := deleteEntry_eq_ok ht hdelete
    have hrest := (hbuilt.delete hi).knowsKeys
    refine ⟨?_, ?_⟩
    · rw [← hknows.find?_eraseAt_self_eq_none_iff hrest hi, hasOwn, own?_eq hg]
      simp [Except.map]
    · intro j
      rw [own?_eq hg, own?_eq ht, Except.ok.injEq]
      exact hknows.find?_eraseAt_eq_iff hi he j

/-- A table has the key 2⁻⁵³ and a string. Zero and 2⁻⁵² both find the number, so that setting the
one changes what the other has; the string has what it had. -/
theorem near_number_changed_with_zero :
    let zero : Scalar := .number ⟨0⟩
    let half : Scalar := .number ⟨0x3ca0000000000000⟩
    let epsilon : Scalar := .number ⟨0x3cb0000000000000⟩
    let name : Scalar := .string ⟨"a", none, 0⟩
    let t := (({} : Table).set half .nil .standard).set name .nil .standard
    let h : Heap := { tables := #[t] }
    h.tables[0]? = some t ∧ t.Built ∧ zero.equals epsilon = false ∧ zero.equals name = false ∧
      ∃ g, h.setEntry 0 (.scalar zero) (.bool true) ⟨true, false⟩ = .ok g ∧
        (∃ key, g.own? 0 (.scalar epsilon) = .ok (some ⟨key, .bool true, ⟨true, false⟩⟩)) ∧
        g.own? 0 (.scalar name) = h.own? 0 (.scalar name) := by
  intro zero half epsilon name t h
  have ht : h.tables[0]? = some t := rfl
  have hbuilt : t.Built := (Table.Built.empty.set ..).set ..
  have hnear : zero.equals epsilon = false := by decide +kernel
  have hname : zero.equals name = false := rfl
  have hshared : t.Shared zero epsilon :=
    ⟨⟨half, .nil, .standard⟩, by decide +kernel, by decide +kernel⟩
  have hother : ¬t.Shared zero name := by
    intro hshared
    obtain ⟨x, y, -, hy⟩ := hshared.numbers hname
    contradiction
  obtain ⟨g, hg, -, hkeys⟩ :=
    (own_entries_after_change ht hbuilt zero).1 (.bool true) ⟨true, false⟩
  exact ⟨ht, hbuilt, hnear, hname, g, hg, (hkeys epsilon hnear).2 hshared,
    (hkeys name hname).1 hother⟩

/-- **Numbers break the laws of a map.** In an empty table a NaN is set and not found. In a table
with the keys zero and 2⁻⁵², 2⁻⁵³ is deleted and found still. In a table with the key 2⁻⁵³, setting
or deleting zero changes what 2⁻⁵² has, which is not equal to zero. -/
theorem numbers_break_map_laws :
    let nan : Value := .number .nan
    let zero : Value := .number ⟨0⟩
    let half : Value := .number ⟨0x3ca0000000000000⟩
    let epsilon : Value := .number ⟨0x3cb0000000000000⟩
    let set (key : Value) : TableAction := .set key .nil .standard
    let empty : Heap := { tables := #[{}] }
    let one := empty.afterActions 0 [set half]
    let two := empty.afterActions 0 [set zero, set epsilon]
    (empty.setEntry 0 nan (.bool true) .standard >>= (·.own? 0 nan)) = .ok none ∧
      (two.deleteEntry 0 half >>= (·.2.hasOwn 0 half)) = .ok true ∧
      empty.equals zero epsilon = false ∧
      one.own? 0 epsilon = .ok (some ⟨.number ⟨0x3ca0000000000000⟩, .nil, .standard⟩) ∧
      (one.setEntry 0 zero (.bool true) .standard >>= (·.own? 0 epsilon)) =
        .ok (some ⟨.number ⟨0x3ca0000000000000⟩, .bool true, .standard⟩) ∧
      (one.deleteEntry 0 zero >>= (·.2.own? 0 epsilon)) = .ok none := by
  refine ⟨?_, ?_, ?_, ?_, ?_, ?_⟩
  · decide +kernel
  · decide +kernel
  · rw [equals, equalsIn]
    decide +kernel
  · decide +kernel
  · decide +kernel
  · decide +kernel

end Heap
end StackMachine
