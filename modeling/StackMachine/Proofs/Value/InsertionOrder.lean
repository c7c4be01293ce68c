import StackMachine.Proofs.Value.Keys

/-!
# Tables in insertion order

A table whose keys are no numbers, and whose strings have the hashes of their texts, is the list of
its entries: what is set and deleted does to the table what it does to a plain list that is searched
from the front, and the list knows nothing of hashes (`plain_table_is_its_list`). Keys with one hash
are therefore told apart, and the order of the entries is that in which their keys came.
-/

namespace StackMachine

/-! ## Plain keys -/

/-- A key that is no number, and that has the hash of its text if it is a string. -/
structure Scalar.Plain (k : Scalar) : Prop where
  ne_number : ∀ x, k ≠ .number x
  rightlyHashed : k.RightlyHashed

/-- Whether two keys are the same by what they are: strings by their texts, functions by address and
arity. -/
def Scalar.sameAs : Scalar → Scalar → Bool
  | .nil, .nil => true
  | .bool a, .bool b => a == b
  | .string s, .string t => s.text == t.text
  | .function f, .function g => f == g
  | _, _ => false

/-- Plain keys are equal when they are the same. -/
theorem Scalar.Plain.equals_eq {a b : Scalar} (ha : a.Plain) (hb : b.Plain) :
    a.equals b = a.sameAs b := by
  cases a <;> cases b <;> try rfl
  case number.number x y => exact absurd rfl (ha.ne_number x)
  case string.string s t =>
    have hs := ha.rightlyHashed s rfl
    have ht := hb.rightlyHashed t rfl
    by_cases htext : s.text = t.text
    · simp [equals, sameAs, hs, ht, htext]
    · simp [equals, sameAs, htext]

/-! ## Lists of entries -/

namespace EntryList

/-- The first entry with the same key. -/
def search (k : Scalar) : List Entry → Option Entry
  | [] => none
  | e :: es => if e.key.sameAs k then some e else search k es

/-- The list after a key is set: an entry with the same key keeps it and its place, else a new entry
comes last. -/
def assign (k : Scalar) (value : Value) (flags : Flags) : List Entry → List Entry
  | [] => [⟨k, value, flags⟩]
  | e :: es =>
    if e.key.sameAs k then ⟨e.key, value, flags⟩ :: es else e :: assign k value flags es

/-- The value of the first entry with the same key, and the list without the entry. -/
def remove? (k : Scalar) : List Entry → Option (Value × List Entry)
  | [] => none
  | e :: es =>
    if e.key.sameAs k then some (e.value, es) else (remove? k es).map fun r => (r.1, e :: r.2)

/-- The list after a change; deleting a key that is not there changes nothing, and containers are no
keys. -/
def change (es : List Entry) : TableAction → List Entry
  | .set (.scalar k) value flags => assign k value flags es
  | .delete (.scalar k) => ((remove? k es).map Prod.snd).getD es
  | .set (.ref _) _ _ | .delete (.ref _) => es

/-- The list after changes of an empty one. -/
def replay (actions : List TableAction) : List Entry := actions.foldl change []

/-! ### Places -/

/-- The place of the first entry with the same key. -/
def place? (k : Scalar) (es : List Entry) : Option Nat := es.findIdx? fun e => e.key.sameAs k

variable {k : Scalar} {value : Value} {flags : Flags} {es : List Entry}

theorem place?_cons_of_pos {e : Entry} (he : e.key.sameAs k = true) (es : List Entry) :
    place? k (e :: es) = some 0 := by
  simp [place?, List.findIdx?_cons, he]

theorem place?_cons_of_neg {e : Entry} (he : ¬e.key.sameAs k = true) (es : List Entry) :
    place? k (e :: es) = (place? k es).map (· + 1) := by
  simp [place?, List.findIdx?_cons, he]

theorem search_eq (k : Scalar) (es : List Entry) : search k es = (place? k es).bind (es[·]?) := by
  induction es with
  | nil => rfl
  | cons e es ih =>
    by_cases he : e.key.sameAs k = true
    · rw [search, if_pos he, place?_cons_of_pos he]
      rfl
    · rw [search, if_neg he, place?_cons_of_neg he, ih]
      cases place? k es <;> simp

theorem assign_eq (k : Scalar) (value : Value) (flags : Flags) (es : List Entry) :
    assign k value flags es =
      match place? k es with
      | some i => es.modify i fun e => ⟨e.key, value, flags⟩
      | none => es ++ [⟨k, value, flags⟩] := by
  induction es with
  | nil => rfl
  | cons e es ih =>
    by_cases he : e.key.sameAs k = true
    · rw [assign, if_pos he, place?_cons_of_pos he]
      rfl
    · rw [assign, if_neg he, place?_cons_of_neg he, ih]
      cases place? k es <;> rfl

theorem remove?_eq (k : Scalar) (es : List Entry) :
    remove? k es = (place? k es).bind fun i => es[i]?.map fun e => (e.value, es.eraseIdx i) := by
  induction es with
  | nil => rfl
  | cons e es ih =>
    by_cases he : e.key.sameAs k = true
    · rw [remove?, if_pos he, place?_cons_of_pos he]
      rfl
    · rw [remove?, if_neg he, place?_cons_of_neg he, ih]
      cases place? k es with
      | none => rfl
      | some i => cases hi : es[i]? <;> simp [hi]

/-! ### Keys -/

theorem plain_of_mem_assign (hk : k.Plain) (hes : ∀ e ∈ es, e.key.Plain) :
    ∀ e ∈ assign k value flags es, e.key.Plain := by
  induction es with
  | nil =>
    intro e he
    obtain rfl := List.mem_singleton.1 he
    exact hk
  | cons e es ih =>
    rw [List.forall_mem_cons] at hes
    rw [assign]
    split
    · exact List.forall_mem_cons.2 hes
    · exact List.forall_mem_cons.2 ⟨hes.1, ih hes.2⟩

theorem plain_of_mem_remove? (hes : ∀ e ∈ es, e.key.Plain) {v : Value} {rest : List Entry}
    (h : remove? k es = some (v, rest)) : ∀ e ∈ rest, e.key.Plain := by
  rw [remove?_eq] at h
  obtain ⟨i, -, h⟩ := Option.bind_eq_some_iff.1 h
  obtain ⟨o, -, hrest⟩ := Option.map_eq_some_iff.1 h
  obtain ⟨-, rfl⟩ := Prod.mk.inj hrest
  exact fun e he => hes e (List.mem_of_mem_eraseIdx he)

end EntryList

/-! ## Stored tables with plain keys -/

/-- A change whose key is plain. -/
def TableAction.Plain : TableAction → Prop
  | .set key _ _ | .delete key => ∃ k, key = .scalar k ∧ k.Plain

/-- An entry without the hash that its key came with. -/
def StoredEntry.toEntry (e : StoredEntry) : Entry := ⟨e.key.scalar, e.value, e.flags⟩

namespace StoredTable

/-- The entries of a stored table in their order. -/
def entries (t : StoredTable) : List Entry := t.map StoredEntry.toEntry

/-- The own entry of a table for a key. -/
def own? (index : KeyIndex) (t : StoredTable) (key : Value) :
    Except AccessError (Option Entry) := do
  let k ← key.toKey
  pure ((t.position? index (.of k)).bind (t.entries[·]?))

/-- A table as it is after changes with plain keys. -/
structure PlainKeys (t : StoredTable) : Prop where
  apart : t.Apart
  plain : ∀ e ∈ t.entries, e.key.Plain

variable {index : KeyIndex} {t u : StoredTable} {k : Scalar} {value : Value} {flags : Flags}

theorem plainKeys_nil : PlainKeys [] := ⟨apart_nil, nofun⟩

theorem getElem?_entries (t : StoredTable) (i : Nat) :
    t.entries[i]? = t[i]?.map StoredEntry.toEntry := List.getElem?_map

/-- **A plain key is found where the list has it first.** There is no second place, because keys
that are the same are equal. -/
theorem PlainKeys.position?_eq (hindex : index.Exact) (ht : t.PlainKeys) (hk : k.Plain) :
    t.position? index (.of k) = EntryList.place? k t.entries := by
  have hsame {e : StoredEntry} (he : e ∈ t) : e.key.scalar.sameAs k = e.key.scalar.equals k :=
    ((ht.plain _ (List.mem_map_of_mem he)).equals_eq hk).symm
  cases hplace : t.position? index (.of k) with
  | none =>
    have hmissing := not_equals_of_position?_eq_none hindex ht.apart.hashed_entries hplace
    symm
    rw [EntryList.place?, List.findIdx?_eq_none_iff]
    intro o ho
    obtain ⟨e, he, rfl⟩ := List.mem_map.1 ho
    exact (hsame he).trans (hmissing e he)
  | some i =>
    obtain ⟨e, he, hequals⟩ := exists_of_position?_eq_some hindex hplace
    symm
    rw [EntryList.place?, entries, List.findIdx?_map, List.findIdx?_eq_some_iff_getElem]
    obtain ⟨hi, rfl⟩ := List.getElem?_eq_some_iff.1 he
    refine ⟨hi, (hsame (List.getElem_mem hi)).trans hequals, ?_⟩
    intro j hj hfirst
    have hj' : j < t.length := Nat.lt_trans hj hi
    have hequals' : t[j].key.scalar.equals k = true :=
      (hsame (List.getElem_mem hj')).symm.trans hfirst
    have hboth : t[j].key.scalar.equals t[i].key.scalar = true :=
      Scalar.equals_of_equals hequals' hequals hk.ne_number
    have := ht.apart.place_unique (List.getElem?_eq_getElem hj') he hboth
    omega

/-! ### Changes -/

theorem toKey_scalar_bind {α : Type} (f : Scalar → Except AccessError α) (k : Scalar) :
    (Value.scalar k).toKey >>= f = f k := rfl

namespace PlainKeys

variable (hindex : index.Exact) (ht : t.PlainKeys) (hk : k.Plain)

include hindex ht hk

theorem own?_eq : t.own? index (.scalar k) = .ok (EntryList.search k t.entries) := by
  rw [own?, toKey_scalar_bind, ht.position?_eq hindex hk, EntryList.search_eq]
  rfl

/-- **Setting a plain key** assigns it in the list. -/
theorem set_eq (value : Value) (flags : Flags) :
    (t.set index (.scalar k) value flags).map entries =
      .ok (EntryList.assign k value flags t.entries) := by
  rw [StoredTable.set, toKey_scalar_bind]
  dsimp only
  rw [ht.position?_eq hindex hk, EntryList.assign_eq]
  cases EntryList.place? k t.entries with
  | none =>
    show Except.ok (entries (t ++ [_])) = _
    rw [entries, List.map_append]
    rfl
  | some i =>
    show Except.ok (entries (t.modify i _)) = _
    refine congrArg Except.ok (List.ext_getElem? fun j => ?_)
    rw [getElem?_entries, List.getElem?_modify, List.getElem?_modify, getElem?_entries]
    split <;> cases t[j]? <;> rfl

/-- **Deleting a plain key** removes it from the list, or the list does not have it. -/
theorem delete_eq :
    (t.delete index (.scalar k)).map (fun r => (r.1, r.2.entries)) =
      match EntryList.remove? k t.entries with
      | some r => .ok r
      | none => .error (.keyNotFound k.text) := by
  rw [StoredTable.delete, toKey_scalar_bind, ht.position?_eq hindex hk, EntryList.remove?_eq]
  cases EntryList.place? k t.entries with
  | none => rfl
  | some i =>
    rw [Option.bind_some, getElem?_entries]
    dsimp only
    cases t[i]? with
    | none => rfl
    | some e =>
      show Except.ok (e.value, entries (t.eraseIdx i)) = .ok (e.value, t.entries.eraseIdx i)
      rw [entries, entries, List.eraseIdx_map]

end PlainKeys

/-- **A change with a plain key** changes the list, and the keys stay plain. -/
theorem PlainKeys.perform (hindex : index.Exact) (ht : t.PlainKeys) {a : TableAction}
    (ha : a.Plain) :
    let u := (t.perform index a).toOption.getD t
    u.PlainKeys ∧ u.entries = EntryList.change t.entries a := by
  intro u
  cases a with
  | set key value flags =>
    obtain ⟨k, rfl, hk⟩ := ha
    obtain ⟨w, hw, hentries⟩ := exists_of_map_ok (ht.set_eq hindex hk value flags)
    have hu : u = w := by
      show ((t.set index (.scalar k) value flags).toOption.getD t) = w
      rw [hw]
      rfl
    rw [hu]
    refine ⟨⟨ht.apart.perform hindex (a := .set (.scalar k) value flags) hw, ?_⟩, hentries⟩
    rw [hentries]
    exact EntryList.plain_of_mem_assign hk ht.plain
  | delete key =>
    obtain ⟨k, rfl, hk⟩ := ha
    have hdelete := ht.delete_eq hindex hk
    have hu : u = ((t.delete index (.scalar k)).map Prod.snd).toOption.getD t := rfl
    rw [EntryList.change, hu]
    cases hremove : EntryList.remove? k t.entries with
    | none =>
      rw [hremove] at hdelete
      cases hw : t.delete index (.scalar k) with
      | error e => exact ⟨ht, rfl⟩
      | ok r =>
        rw [hw] at hdelete
        contradiction
    | some r =>
      rw [hremove] at hdelete
      obtain ⟨w, hw, rfl⟩ := exists_of_map_ok hdelete
      rw [hw]
      refine ⟨⟨ht.apart.perform hindex (a := .delete (.scalar k)) ?_, ?_⟩, rfl⟩
      · rw [StoredTable.perform, hw]
        rfl
      · exact EntryList.plain_of_mem_remove? ht.plain hremove

/-- **Changes with plain keys** change the list one after the other. -/
theorem PlainKeys.after (hindex : index.Exact) (ht : t.PlainKeys) {actions : List TableAction}
    (hplain : ∀ a ∈ actions, a.Plain) :
    (t.after index actions).PlainKeys ∧
      (t.after index actions).entries = actions.foldl EntryList.change t.entries := by
  induction actions generalizing t with
  | nil => exact ⟨ht, rfl⟩
  | cons a actions ih =>
    rw [List.forall_mem_cons] at hplain
    obtain ⟨hu, hentries⟩ := ht.perform hindex hplain.1
    rw [List.foldl_cons, ← hentries]
    exact ih hu hplain.2

/-- A stored table does to plain keys what a list of entries does. -/
structure ActsAs (index : KeyIndex) (t : StoredTable) (es : List Entry) : Prop where
  entries : t.entries = es
  own : ∀ k, k.Plain → t.own? index (.scalar k) = .ok (EntryList.search k es)
  set : ∀ k value flags, k.Plain →
    (t.set index (.scalar k) value flags).map StoredTable.entries =
      .ok (EntryList.assign k value flags es)
  delete : ∀ k, k.Plain →
    (t.delete index (.scalar k)).map (fun r => (r.1, r.2.entries)) =
      match EntryList.remove? k es with
      | some r => .ok r
      | none => .error (.keyNotFound k.text)

theorem PlainKeys.actsAs (hindex : index.Exact) (ht : t.PlainKeys) :
    t.ActsAs index t.entries where
  entries := rfl
  own := fun _ hk => ht.own?_eq hindex hk
  set := fun _ value flags hk => ht.set_eq hindex hk value flags
  delete := fun _ hk => ht.delete_eq hindex hk

end StoredTable

/-! ## Tables of a heap -/

/-- A table of a heap does to plain keys what a list of entries does: what it has and what flags are
those that are found first in the list, and a failed deletion gives the name of the key. -/
structure Heap.TableActsAs (h : Heap) (id : Nat) (es : List Entry) : Prop where
  entries : (h.tableAt id).entries = es
  own : ∀ k, k.Plain → h.own? id (.scalar k) = .ok (EntryList.search k es)
  contains : ∀ k, k.Plain → h.hasOwn id (.scalar k) = .ok (EntryList.search k es).isSome
  flags : ∀ k, k.Plain →
    h.ownFlags? id (.scalar k) = .ok ((EntryList.search k es).map Entry.flags)
  set : ∀ k value flags, k.Plain →
    (h.setEntry id (.scalar k) value flags).map (fun g => (g.tableAt id).entries) =
      .ok (EntryList.assign k value flags es)
  delete : ∀ k, k.Plain →
    (h.deleteEntry id (.scalar k)).map (fun r => (r.1, (r.2.tableAt id).entries)) =
      match EntryList.remove? k es with
      | some r => .ok r
      | none => .error (.keyNotFound k.text)

namespace StoredTable

variable {h : Heap} {id : Nat} {u : Table} {es : List Entry}

theorem entries_ofTable (t : Table) : (ofTable t).entries = t.entries := by
  rw [entries, ofTable, List.map_map]
  exact List.map_id _

theorem own?_ofTable (hu : h.tables[id]? = some u) (k : Scalar) :
    h.own? id (.scalar k) = (ofTable u).own? .scan (.scalar k) := by
  rw [Heap.own?, own?, toKey_scalar_bind, toKey_scalar_bind, tableAt_of_getElem? hu,
    position?_ofTable, entries_ofTable]
  rfl

/-- A table of the heap acts as its stored table. -/
theorem ActsAs.tableActsAs (hu : h.tables[id]? = some u) (hacts : (ofTable u).ActsAs .scan es) :
    h.TableActsAs id es := by
  have hown (k : Scalar) (hk : k.Plain) :
      h.own? id (.scalar k) = .ok (EntryList.search k es) := by
    rw [own?_ofTable hu, hacts.own k hk]
  constructor
  · rw [tableAt_of_getElem? hu, ← entries_ofTable, hacts.entries]
  · exact hown
  · intro k hk
    rw [Heap.hasOwn, hown k hk]
    rfl
  · intro k hk
    rw [Heap.ownFlags?, hown k hk]
    rfl
  · intro k value flags hk
    have hset := hacts.set k value flags hk
    rw [set_ofTable] at hset
    show Except.ok ((h.modifyTable id _).tableAt id).entries = _
    rw [tableAt_of_getElem? (getElem?_modifyTable hu _), ← entries_ofTable]
    exact hset
  · intro k hk
    rw [← hacts.delete k hk, delete_ofTable, Heap.deleteEntry, toKey_scalar_bind,
      tableAt_of_getElem? hu]
    cases u.position? k with
    | none => rfl
    | some i =>
      dsimp only
      cases u.entries[i]? with
      | none => rfl
      | some e =>
        show Except.ok (e.value, ((h.modifyTable id _).tableAt id).entries) =
          .ok (e.value, (ofTable (u.eraseAt i)).entries)
        rw [tableAt_of_getElem? (getElem?_modifyTable hu _), entries_ofTable]

end StoredTable

/-- **A table with plain keys is the list of its entries.** Keys that are no numbers, and strings
with the hashes of their texts, are set in an empty table and deleted from it. The entries of the
table are then those of a list that did the same, in their order, and whatever is asked of the table
or done to it next has the answer that the list gives. This holds for any index that finds the entry
with a key's hash and value, so that other keys of the same hash do not matter, and it holds of the
tables of a heap. -/
theorem plain_table_is_its_list {index : KeyIndex} (hindex : index.Exact)
    {actions : List TableAction} (hplain : ∀ a ∈ actions, a.Plain) :
    (StoredTable.after index [] actions).ActsAs index (EntryList.replay actions) ∧
      ∀ (h : Heap) (id : Nat) (prototype : Option Value), h.tables[id]? = some { prototype } →
        (h.afterActions id actions).TableActsAs id (EntryList.replay actions) := by
  have hacts {index : KeyIndex} (hindex : index.Exact) :
      (StoredTable.after index [] actions).ActsAs index (EntryList.replay actions) := by
    obtain ⟨hkeys, hentries⟩ := StoredTable.plainKeys_nil.after hindex hplain
    have hlist : EntryList.replay actions = (StoredTable.after index [] actions).entries :=
      hentries.symm
    rw [hlist]
    exact hkeys.actsAs hindex
  refine ⟨hacts hindex, ?_⟩
  intro h id prototype hempty
  obtain ⟨w, hw, hstored⟩ := StoredTable.exists_afterActions hempty actions
  have hscan := hacts KeyIndex.exact_scan
  have hnil : StoredTable.ofTable { prototype } = [] := rfl
  rw [← hnil, hstored] at hscan
  exact hscan.tableActsAs hw

/-- A string that is set again keeps its key and its place, one that is set after it was deleted
comes last, and what is not there cannot be deleted. -/
theorem key_set_after_deletion_comes_last :
    let name (id : Nat) : Value := .string ⟨"a", none, id⟩
    let code : Value := .scalar (.function ⟨5, 1⟩)
    let actions : List TableAction := [
      .set (name 0) .nil .standard, .set (.bool true) .nil .standard, .set code .nil .standard,
      .set (name 1) (.bool false) ⟨true, false⟩, .delete .nil, .delete (.bool true),
      .set (.bool true) code .standard]
    let es : List Entry := [
      ⟨.string ⟨"a", none, 0⟩, .bool false, ⟨true, false⟩⟩, ⟨.function ⟨5, 1⟩, .nil, .standard⟩,
      ⟨.bool true, code, .standard⟩]
    let h : Heap := { tables := #[{}] }
    KeyIndex.scan.Exact ∧ (∀ a ∈ actions, a.Plain) ∧ h.tables[0]? = some { prototype := none } ∧
      (h.afterActions 0 actions).TableActsAs 0 es := by
  intro name code actions es h
  have hname (id : Nat) : (Scalar.string ⟨"a", none, id⟩).Plain := by
    constructor
    · exact nofun
    · rintro s ⟨⟩
      rfl
  have hnil : Scalar.nil.Plain := ⟨nofun, nofun⟩
  have htrue : (Scalar.bool true).Plain := ⟨nofun, nofun⟩
  have hcode : (Scalar.function ⟨5, 1⟩).Plain := ⟨nofun, nofun⟩
  have hplain : ∀ a ∈ actions, a.Plain := by
    simp only [actions, List.forall_mem_cons]
    exact ⟨⟨_, rfl, hname 0⟩, ⟨_, rfl, htrue⟩, ⟨_, rfl, hcode⟩, ⟨_, rfl, hname 1⟩,
      ⟨_, rfl, hnil⟩, ⟨_, rfl, htrue⟩, ⟨_, rfl, htrue⟩, nofun⟩
  have hempty : h.tables[0]? = some { prototype := none } := rfl
  have hreplay : EntryList.replay actions = es := by decide +kernel
  have hacts := (plain_table_is_its_list KeyIndex.exact_scan hplain).2 h 0 none hempty
  rw [hreplay] at hacts
  exact ⟨KeyIndex.exact_scan, hplain, hempty, hacts⟩

end StackMachine
