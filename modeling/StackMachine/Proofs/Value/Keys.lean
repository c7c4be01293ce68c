import StackMachine.Proofs.Prelude
import StackMachine.Value.Access

/-!
# The keys of a table

Numbers count as equal when they are close to each other, but they hash by their bits, so a key may
be equal to one that is stored under another hash. A table finds such an entry by a second search
among all keys, and therefore never holds two entries with equal keys.

This does not depend on how keys are found by their hashes. A stored table keeps each key with the
hash that it had when it came in, and is given an index that finds a key of equal hash and value;
what is said of stored tables is said for every such index. The tables of the heap are the stored
tables whose index searches from the front (`StoredTable.ofTable_afterActions`).
-/

namespace StackMachine

/-- A scalar that has the hash of its text if it is a string. -/
def Scalar.RightlyHashed (k : Scalar) : Prop := ∀ s, k = .string s → s.hash = hashText s.text

/-- Scalars that are equal have equal hashes, unless they are numbers. -/
theorem Scalar.hash_eq_of_equals {a b : Scalar} (h : a.equals b = true)
    (hnumber : ∀ x, b ≠ .number x) : a.hash = b.hash := by
  cases a <;> cases b <;> try contradiction
  case nil.nil => rfl
  case bool.bool => exact congrArg (fun c => hash (.bool c)) (beq_iff_eq.1 h)
  case number.number => exact absurd rfl (hnumber _)
  case string.string => exact beq_iff_eq.1 (Bool.and_eq_true_iff.1 h).2
  case function.function => exact congrArg (fun f => hash (.function f)) (beq_iff_eq.1 h)

/-- Scalars that are equal to one scalar are equal, unless they are numbers. -/
theorem Scalar.equals_of_equals {a b c : Scalar} (ha : a.equals c = true)
    (hb : b.equals c = true) (hnumber : ∀ x, c ≠ .number x) : a.equals b = true := by
  cases a <;> cases b <;> cases c <;> simp_all [Scalar.equals]

/-! ## Stored keys -/

/-- A key as it is stored: a scalar, with the hash that it had when it came in. -/
structure StoredKey where
  scalar : Scalar
  hash : UInt64

/-- A scalar with its hash. -/
def StoredKey.of (k : Scalar) : StoredKey := ⟨k, k.hash⟩

/-- Whether two keys are the same to an index. -/
def StoredKey.matches (a b : StoredKey) : Bool := a.scalar.equals b.scalar && a.hash == b.hash

/-- An entry whose key is stored with its hash. -/
structure StoredEntry where
  key : StoredKey
  value : Value
  flags : Flags

/-- An entry with the hash of its key. -/
def StoredEntry.of (e : Entry) : StoredEntry := ⟨.of e.key, e.value, e.flags⟩

/-- A way to find the place of a key among entries. -/
abbrev KeyIndex := List StoredEntry → StoredKey → Option Nat

/-- An index finds an entry with the same key if there is one, and nothing else. -/
structure KeyIndex.Exact (index : KeyIndex) : Prop where
  found : ∀ {entries key i}, index entries key = some i →
    ∃ e, entries[i]? = some e ∧ e.key.matches key = true
  missing : ∀ {entries key}, index entries key = none →
    ∀ e ∈ entries, e.key.matches key = false

/-- The index that searches from the front. -/
def KeyIndex.scan : KeyIndex := fun entries key => entries.findIdx? fun e => e.key.matches key

theorem exists_of_findIdx?_eq_some {α : Type} {p : α → Bool} {xs : List α} {i : Nat}
    (h : xs.findIdx? p = some i) : ∃ x, xs[i]? = some x ∧ p x = true := by
  obtain ⟨hi, hp, -⟩ := List.findIdx?_eq_some_iff_getElem.1 h
  exact ⟨xs[i], List.getElem?_eq_getElem hi, hp⟩

theorem KeyIndex.exact_scan : scan.Exact where
  found := exists_of_findIdx?_eq_some
  missing := List.findIdx?_eq_none_iff.1

/-! ## Stored tables -/

/-- The entries of a table, each with the hash of its key. -/
abbrev StoredTable := List StoredEntry

/-- A change of a table. -/
inductive TableAction where
  | set (key value : Value) (flags : Flags)
  | delete (key : Value)

namespace StoredTable

variable (index : KeyIndex) (t : StoredTable)

/-- The place of the entry that matches a key: the one that the index finds or, for a number that
it does not find, the first one with an equal key. -/
def position? (k : StoredKey) : Option Nat :=
  match index t k with
  | some i => some i
  | none =>
    match k.scalar with
    | .number _ => t.findIdx? fun e => e.key.scalar.equals k.scalar
    | _ => none

/-- The table after a key is set. An entry that matches keeps its key and its place. -/
def set (key value : Value) (flags : Flags) : Except AccessError StoredTable := do
  let k := StoredKey.of (← key.toKey)
  match t.position? index k with
  | some i => pure (t.modify i fun e => { e with value, flags })
  | none => pure (t ++ [⟨k, value, flags⟩])

/-- The value of the entry that is deleted, and the table without it. -/
def delete (key : Value) : Except AccessError (Value × StoredTable) := do
  let k ← key.toKey
  match t.position? index (.of k) with
  | none => .error (.keyNotFound k.text)
  | some i =>
    match t[i]? with
    | none => .error (.keyNotFound k.text)
    | some e => pure (e.value, t.eraseIdx i)

/-- The table after a change, if the change can be made. -/
def perform : TableAction → Except AccessError StoredTable
  | .set key value flags => t.set index key value flags
  | .delete key => (t.delete index key).map Prod.snd

/-- The table after changes; those that fail change nothing. -/
def after (actions : List TableAction) : StoredTable :=
  actions.foldl (fun t a => (t.perform index a).toOption.getD t) t

end StoredTable

/-! ## Finding a key -/

namespace StoredTable

variable {index : KeyIndex} {t : StoredTable} {k : Scalar} {i : Nat}

/-- **Only an entry with an equal key is found.** -/
theorem exists_of_position?_eq_some (hindex : index.Exact)
    (h : t.position? index (.of k) = some i) :
    ∃ e, t[i]? = some e ∧ e.key.scalar.equals k = true := by
  unfold position? at h
  split at h
  · next j hj =>
    obtain rfl := Option.some.inj h
    obtain ⟨e, he, hmatches⟩ := hindex.found hj
    exact ⟨e, he, (Bool.and_eq_true_iff.1 hmatches).1⟩
  · split at h
    · exact exists_of_findIdx?_eq_some h
    · contradiction

/-- **Where no entry is found, no key is equal**, when keys are stored with their hashes. -/
theorem not_equals_of_position?_eq_none (hindex : index.Exact)
    (hhashed : ∀ e ∈ t, e.key.hash = e.key.scalar.hash) (h : t.position? index (.of k) = none) :
    ∀ e ∈ t, e.key.scalar.equals k = false := by
  intro e he
  unfold position? at h
  split at h
  · contradiction
  · next hmissing =>
    split at h
    -- A number was also looked for among all keys.
    · exact List.findIdx?_eq_none_iff.1 h e he
    -- Anything else that is equal has the same hash, so the index would have found it.
    · next hnumber =>
      have hdiffers := hindex.missing hmissing e he
      by_contra hequals
      rw [Bool.not_eq_false] at hequals
      have hhash : e.key.hash = k.hash :=
        (hhashed e he).trans (Scalar.hash_eq_of_equals hequals hnumber)
      have hmatches : e.key.matches (.of k) = true :=
        Bool.and_eq_true_iff.2 ⟨hequals, beq_iff_eq.2 hhash⟩
      rw [hmatches] at hdiffers
      contradiction

/-! ## Keys that are apart -/

/-- The keys of a table, in the order of their entries. -/
def keys (t : StoredTable) : List StoredKey := t.map StoredEntry.key

/-- Every key of a table is stored with its hash, and no two of them are equal. -/
structure Apart (t : StoredTable) : Prop where
  hashed : ∀ k ∈ t.keys, k.hash = k.scalar.hash
  apart : t.keys.Pairwise fun a b => a.scalar.equals b.scalar = false

theorem Apart.hashed_entries (h : t.Apart) : ∀ e ∈ t, e.key.hash = e.key.scalar.hash :=
  fun _ he => h.hashed _ (List.mem_map_of_mem he)

theorem apart_nil : Apart [] := ⟨nofun, .nil⟩

/-- A change that keeps the keys. -/
theorem Apart.modify (h : t.Apart) (i : Nat) (value : Value) (flags : Flags) :
    Apart (t.modify i fun e => { e with value, flags }) := by
  have hkeys : keys (t.modify i fun e => { e with value, flags }) = t.keys := by
    refine List.ext_getElem? fun j => ?_
    rw [keys, keys, List.getElem?_map, List.getElem?_map, List.getElem?_modify]
    split <;> cases t[j]? <;> rfl
  exact ⟨hkeys ▸ h.hashed, hkeys ▸ h.apart⟩

theorem Apart.concat (h : t.Apart) {value : Value} {flags : Flags}
    (hnew : ∀ e ∈ t, e.key.scalar.equals k = false) :
    Apart (t ++ [⟨.of k, value, flags⟩]) := by
  have hkeys : keys (t ++ [⟨.of k, value, flags⟩]) = t.keys ++ [.of k] := by
    rw [keys, List.map_append]
    rfl
  constructor
  · intro a ha
    rw [hkeys, List.mem_append, List.mem_singleton] at ha
    rcases ha with ha | rfl
    · exact h.hashed a ha
    · rfl
  · rw [hkeys, List.pairwise_append]
    refine ⟨h.apart, List.pairwise_singleton _ _, ?_⟩
    intro a ha b hb
    obtain rfl := List.mem_singleton.1 hb
    obtain ⟨e, he, rfl⟩ := List.mem_map.1 ha
    exact hnew e he

theorem Apart.eraseIdx (h : t.Apart) (i : Nat) : Apart (t.eraseIdx i) := by
  have hkeys : List.Sublist (keys (t.eraseIdx i)) t.keys :=
    (List.eraseIdx_sublist t i).map StoredEntry.key
  exact ⟨fun k hk => h.hashed k (hkeys.subset hk), h.apart.sublist hkeys⟩

/-- **A change keeps the keys apart**: a new entry is made only where no key is equal. -/
theorem Apart.perform (hindex : index.Exact) (h : t.Apart) {a : TableAction} {u : StoredTable}
    (hu : t.perform index a = .ok u) : u.Apart := by
  cases a with
  | set key value flags =>
    obtain ⟨k, -, hu⟩ := exists_of_bind_ok hu
    dsimp only at hu
    split at hu
    · obtain rfl := Except.ok.inj hu
      exact h.modify _ _ _
    · next hmissing =>
      obtain rfl := Except.ok.inj hu
      exact h.concat (not_equals_of_position?_eq_none hindex h.hashed_entries hmissing)
  | delete key =>
    obtain ⟨⟨v, u'⟩, hdelete, rfl⟩ := exists_of_map_ok hu
    obtain ⟨k, -, hdelete⟩ := exists_of_bind_ok hdelete
    split at hdelete
    · contradiction
    · split at hdelete
      · contradiction
      · obtain ⟨-, rfl⟩ := Prod.mk.inj (Except.ok.inj hdelete)
        exact h.eraseIdx _

theorem Apart.after (hindex : index.Exact) (h : t.Apart) (actions : List TableAction) :
    (t.after index actions).Apart := by
  induction actions generalizing t with
  | nil => exact h
  | cons a actions ih =>
    refine ih ?_
    show Apart ((t.perform index a).toOption.getD t)
    cases hu : t.perform index a with
    | error e => exact h
    | ok u => exact h.perform hindex hu

/-- Two entries of a table with equal keys are one entry. -/
theorem Apart.place_unique (h : t.Apart) {i j : Nat} {e f : StoredEntry} (hi : t[i]? = some e)
    (hj : t[j]? = some f) (hequals : e.key.scalar.equals f.key.scalar = true) : i = j := by
  have hlt {a b : Nat} {x y : StoredEntry} (hab : a < b) (ha : t[a]? = some x)
      (hb : t[b]? = some y) : x.key.scalar.equals y.key.scalar = false := by
    have hpairs := List.pairwise_map.1 h.apart
    obtain ⟨ha', rfl⟩ := List.getElem?_eq_some_iff.1 ha
    obtain ⟨hb', rfl⟩ := List.getElem?_eq_some_iff.1 hb
    exact List.pairwise_iff_getElem.1 hpairs a b ha' hb' hab
  rcases Nat.lt_trichotomy i j with hij | hij | hij
  · rw [hlt hij hi hj] at hequals
    contradiction
  · exact hij
  · rw [Scalar.equals_comm, hlt hij hj hi] at hequals
    contradiction

/-! ## The tables of a heap -/

/-- A table with the hashes of its keys. -/
def ofTable (t : Table) : StoredTable := t.entries.map .of

/-- A table finds a key as with the index that searches from the front. -/
theorem position?_ofTable (t : Table) (k : Scalar) :
    position? .scan (ofTable t) (.of k) = t.position? k := by
  have hscan : KeyIndex.scan (ofTable t) (.of k) =
      t.entries.findIdx? fun e => e.key.equals k && e.key.hash == k.hash := by
    rw [KeyIndex.scan, ofTable, List.findIdx?_map]
    rfl
  have hnumbers : (ofTable t).findIdx? (fun e => e.key.scalar.equals k) =
      t.entries.findIdx? fun e => e.key.equals k := by
    rw [ofTable, List.findIdx?_map]
    rfl
  unfold position? Table.position?
  rw [hscan]
  generalize (t.entries.findIdx? fun e => e.key.equals k && e.key.hash == k.hash) = first
  cases first with
  | some i => rfl
  | none =>
    cases k with
    | number x => exact hnumbers
    | _ => rfl

/-- Setting a key of a table sets it in the stored table. -/
theorem set_ofTable (t : Table) (k : Scalar) (value : Value) (flags : Flags) :
    (ofTable t).set .scan (.scalar k) value flags = .ok (ofTable (t.set k value flags)) := by
  have hconcat : ofTable t ++ [⟨.of k, value, flags⟩] =
      ofTable { t with entries := t.entries ++ [⟨k, value, flags⟩] } := by
    rw [ofTable, ofTable, List.map_append]
    rfl
  have hmodify (i : Nat) : (ofTable t).modify i (fun e => { e with value, flags }) =
      ofTable { t with entries := t.entries.modify i fun e => { e with value, flags } } := by
    refine List.ext_getElem? fun j => ?_
    rw [ofTable, ofTable, List.getElem?_modify, List.getElem?_map, List.getElem?_map,
      List.getElem?_modify]
    split <;> cases t.entries[j]? <;> rfl
  rw [set, Table.set, Value.toKey]
  show (match position? .scan (ofTable t) (.of k) with
    | some i => _
    | none => _) = _
  rw [position?_ofTable]
  cases t.position? k with
  | none => exact congrArg Except.ok hconcat
  | some i => exact congrArg Except.ok (hmodify i)

/-- Deleting a key of a table deletes it from the stored table. -/
theorem delete_ofTable (t : Table) (k : Scalar) :
    (ofTable t).delete .scan (.scalar k) =
      match t.position? k with
      | none => .error (.keyNotFound k.text)
      | some i =>
        match t.entries[i]? with
        | none => .error (.keyNotFound k.text)
        | some e => .ok (e.value, ofTable (t.eraseAt i)) := by
  have herase (i : Nat) : (ofTable t).eraseIdx i = ofTable (t.eraseAt i) := List.eraseIdx_map ..
  rw [delete, Value.toKey]
  show (match position? .scan (ofTable t) (.of k) with
    | none => _
    | some i => _) = _
  rw [position?_ofTable]
  cases t.position? k with
  | none => rfl
  | some i =>
    dsimp only
    rw [herase, ofTable, List.getElem?_map]
    cases t.entries[i]? <;> rfl

end StoredTable

/-- The heap after a change of one of its tables. -/
def TableAction.perform (id : Nat) (h : Heap) : TableAction → Except AccessError Heap
  | .set key value flags => h.setEntry id key value flags
  | .delete key => (h.deleteEntry id key).map Prod.snd

/-- The heap after changes of one of its tables; those that fail change nothing. -/
def Heap.afterActions (id : Nat) (h : Heap) (actions : List TableAction) : Heap :=
  actions.foldl (fun h a => (a.perform id h).toOption.getD h) h

namespace StoredTable

variable {h : Heap} {id : Nat} {u : Table}

theorem tableAt_of_getElem? (hu : h.tables[id]? = some u) : h.tableAt id = u := by
  obtain ⟨hid, rfl⟩ := Array.getElem?_eq_some_iff.1 hu
  rw [Heap.tableAt, Array.getD, dif_pos hid]
  rfl

theorem getElem?_modifyTable (hu : h.tables[id]? = some u) (f : Table → Table) :
    (h.modifyTable id f).tables[id]? = some (f u) := by
  rw [Heap.modifyTable, Array.getElem?_modify, if_pos rfl, hu]
  rfl

/-- A change of a table of the heap is the change of the stored table. -/
theorem perform_ofTable (hu : h.tables[id]? = some u) (a : TableAction) :
    match a.perform id h with
    | .ok g => ∃ w, g.tables[id]? = some w ∧ (ofTable u).perform .scan a = .ok (ofTable w)
    | .error e => (ofTable u).perform .scan a = .error e := by
  cases a with
  | set key value flags =>
    cases key with
    | ref r => rfl
    | scalar k =>
      exact ⟨u.set k value flags, getElem?_modifyTable hu _, set_ofTable u k value flags⟩
  | delete key =>
    cases key with
    | ref r => rfl
    | scalar k =>
      rw [StoredTable.perform, delete_ofTable, TableAction.perform, Heap.deleteEntry,
        tableAt_of_getElem? hu, Value.toKey]
      cases hi : u.position? k with
      | none => simp only [hi, bind, Except.bind, Except.map]
      | some i =>
        cases he : u.entries[i]? with
        | none => simp only [hi, he, bind, Except.bind, Except.map]
        | some e =>
          simp only [hi, he, bind, Except.bind, Except.map]
          exact ⟨u.eraseAt i, getElem?_modifyTable hu _, rfl⟩

/-- **The table after changes** is the stored table after them. -/
theorem exists_afterActions (hu : h.tables[id]? = some u) (actions : List TableAction) :
    ∃ w, (h.afterActions id actions).tables[id]? = some w ∧
      (ofTable u).after .scan actions = ofTable w := by
  induction actions generalizing h u with
  | nil => exact ⟨u, hu, rfl⟩
  | cons a actions ih =>
    show ∃ w, (((a.perform id h).toOption.getD h).afterActions id actions).tables[id]? = some w ∧
      after .scan (((ofTable u).perform .scan a).toOption.getD (ofTable u)) actions = ofTable w
    have hperform := perform_ofTable hu a
    cases hg : a.perform id h with
    | error e =>
      rw [hg] at hperform
      rw [hperform]
      exact ih hu
    | ok g =>
      rw [hg] at hperform
      obtain ⟨v, hv, hstored⟩ := hperform
      rw [hstored]
      exact ih hv

theorem ofTable_afterActions (hu : h.tables[id]? = some u) (actions : List TableAction) :
    (ofTable u).after .scan actions = ofTable ((h.afterActions id actions).tableAt id) := by
  obtain ⟨w, hw, hstored⟩ := exists_afterActions hu actions
  rw [hstored, tableAt_of_getElem? hw]

end StoredTable

/-! ## Every table -/

/-- What a table knows of its keys: each is stored with its hash, no two entries have equal keys,
and a key is found exactly when an entry has an equal one. -/
structure StoredTable.KnowsKeys (index : KeyIndex) (t : StoredTable) : Prop where
  hashed : ∀ e ∈ t, e.key.hash = e.key.scalar.hash
  apart : ∀ (i j : Nat) (e f : StoredEntry), t[i]? = some e → t[j]? = some f →
    e.key.scalar.equals f.key.scalar = true → i = j
  found : ∀ k i, t.position? index (.of k) = some i →
    ∃ e, t[i]? = some e ∧ e.key.scalar.equals k = true
  missing : ∀ k, t.position? index (.of k) = none → ∀ e ∈ t, e.key.scalar.equals k = false

theorem StoredTable.Apart.knowsKeys {index : KeyIndex} (hindex : index.Exact) {t : StoredTable}
    (h : t.Apart) : t.KnowsKeys index where
  hashed := h.hashed_entries
  apart := fun _ _ _ _ hi hj hequals => h.place_unique hi hj hequals
  found := fun _ _ hi => exists_of_position?_eq_some hindex hi
  missing := fun _ hnone => not_equals_of_position?_eq_none hindex h.hashed_entries hnone

/-- No two entries of a table have equal keys, and a key is found exactly when an entry has an equal
one. -/
structure Table.KnowsKeys (t : Table) : Prop where
  apart : ∀ (i j : Nat) (e f : Entry), t.entries[i]? = some e → t.entries[j]? = some f →
    e.key.equals f.key = true → i = j
  found : ∀ k i, t.position? k = some i → ∃ e, t.entries[i]? = some e ∧ e.key.equals k = true
  missing : ∀ k, t.position? k = none → ∀ e ∈ t.entries, e.key.equals k = false

theorem StoredTable.KnowsKeys.ofTable {t : Table}
    (h : (StoredTable.ofTable t).KnowsKeys .scan) : t.KnowsKeys where
  apart := by
    intro i j e f hi hj hequals
    have hplace {i : Nat} {e : Entry} (hi : t.entries[i]? = some e) :
        (StoredTable.ofTable t)[i]? = some (.of e) := by
      rw [StoredTable.ofTable, List.getElem?_map, hi]
      rfl
    exact h.apart i j _ _ (hplace hi) (hplace hj) hequals
  found := by
    intro k i hi
    rw [← StoredTable.position?_ofTable] at hi
    obtain ⟨e, he, hequals⟩ := h.found k i hi
    rw [StoredTable.ofTable, List.getElem?_map] at he
    obtain ⟨e', he', rfl⟩ := Option.map_eq_some_iff.1 he
    exact ⟨e', he', hequals⟩
  missing := by
    intro k hnone e he
    rw [← StoredTable.position?_ofTable] at hnone
    exact h.missing k hnone _ (List.mem_map_of_mem he)

/-- **The keys of a table.** Whatever is set in an empty table of a heap and deleted from it, with
whatever keys and flags, no array and no table becomes a key, no two entries have equal keys, and a
key is found exactly when an entry has an equal one. The same holds of a table that stores each key
with the hash that it had when it came in, and finds keys by any index that is exact; with the index
that searches from the front this is the table of the heap. -/
theorem table_keys_kept_apart {h : Heap} {id : Nat} {prototype : Option Value}
    (hempty : h.tables[id]? = some { prototype }) {index : KeyIndex} (hindex : index.Exact)
    (actions : List TableAction) :
    let t := (h.afterActions id actions).tableAt id
    (∀ r value flags, h.setEntry id (.ref r) value flags = .error (.notHashable r.tag)) ∧
      t.KnowsKeys ∧ (StoredTable.after index [] actions).KnowsKeys index ∧
      StoredTable.after .scan [] actions = .ofTable t := by
  intro t
  have hsame : StoredTable.after .scan [] actions = .ofTable t :=
    StoredTable.ofTable_afterActions hempty actions
  have hknows {index : KeyIndex} (hindex : index.Exact) :
      (StoredTable.after index [] actions).KnowsKeys index :=
    (StoredTable.apart_nil.after hindex actions).knowsKeys hindex
  have hscan := hknows KeyIndex.exact_scan
  rw [hsame] at hscan
  exact ⟨fun r value flags => rfl, hscan.ofTable, hknows hindex, hsame⟩

/-- A number near another one takes its entry, the number that is none takes a new one each time,
and strings with one text and two hashes are two keys. -/
theorem near_number_takes_entry :
    let third : Number := ⟨0x3fd3333333333333⟩
    let sum : Number := ⟨0x3fd3333333333334⟩
    let named (hash : Option UInt64) (id : Nat) : Value := .string ⟨"a", hash, id⟩
    let set (key : Value) : TableAction := .set key .nil .standard
    let actions : List TableAction := [
      set (.number third), .set (.number sum) (.bool true) ⟨true, false⟩, set (.number .nan),
      set (.number .nan), set (.array 0), set (named (some 7) 0), set (named none 1),
      set (named (some 7) 2), .delete (.number sum), .delete (.bool true)]
    let h : Heap := { tables := #[{}] }
    let t := (h.afterActions 0 actions).tableAt 0
    h.tables[0]? = some { prototype := none } ∧ KeyIndex.scan.Exact ∧
      t.entries.map Entry.key =
        [.number .nan, .number .nan, .string ⟨"a", some 7, 0⟩, .string ⟨"a", none, 1⟩] ∧
      t.KnowsKeys := by
  intro third sum named set actions h t
  have hempty : h.tables[0]? = some { prototype := none } := rfl
  have hkeys := table_keys_kept_apart hempty KeyIndex.exact_scan actions
  exact ⟨hempty, KeyIndex.exact_scan, by decide +kernel, hkeys.2.1⟩

end StackMachine
