import StackMachine.Proofs.Prelude
import StackMachine.Value.Access
import StackMachine.Value.Equality

/-!
# Heaps with older containers

A heap may begin with containers and strings that were made for something else. What is made then
has higher numbers, and nothing else is different: a value past another heap (`Value.past`) has the
same kind and the same text, two values are equal when they were, and reading and writing in the
longer heap (`Heap.past`) give what they gave, past the other heap. Nothing reaches the containers
that were there before.
-/

namespace StackMachine

/-! ## Values past a heap -/

/-- A string that is made when the strings of a heap were made already. -/
def SharedString.past (j : Heap) (s : SharedString) : SharedString :=
  { s with id := j.stringCount + s.id }

/-- A scalar past a heap: only a string has another identity. -/
def Scalar.past (j : Heap) : Scalar → Scalar
  | .string s => .string (s.past j)
  | s => s

/-- A reference past the containers of a heap. -/
def Ref.past (j : Heap) : Ref → Ref
  | .array id => .array (j.arrays.size + id)
  | .table id => .table (j.tables.size + id)

/-- A value past a heap. -/
def Value.past (j : Heap) : Value → Value
  | .scalar s => .scalar (s.past j)
  | .ref r => .ref (r.past j)

/-- An entry past a heap. -/
def Entry.past (j : Heap) (e : Entry) : Entry :=
  { e with key := e.key.past j, value := e.value.past j }

/-- A table past a heap. -/
def Table.past (j : Heap) (t : Table) : Table where
  entries := t.entries.map (Entry.past j)
  prototype := t.prototype.map (Value.past j)

/-- A heap past another: what was in the other comes first. -/
def Heap.past (h j : Heap) : Heap where
  arrays := j.arrays ++ h.arrays.map (Array.map (Value.past j))
  tables := j.tables ++ h.tables.map (Table.past j)
  stringCount := j.stringCount + h.stringCount

/-! ### Past an empty heap -/

theorem Scalar.past_empty : Scalar.past {} = id := by
  funext s
  cases s <;> simp [past, SharedString.past]

theorem Ref.past_empty : Ref.past {} = id := by
  funext r
  cases r <;> simp [past]

theorem Value.past_empty : Value.past {} = id := by
  funext v
  cases v <;> simp [past, Scalar.past_empty, Ref.past_empty]

theorem Table.past_empty : Table.past {} = id := by
  have hentry : Entry.past {} = id := by
    funext e
    simp [Entry.past, Scalar.past_empty, Value.past_empty]
  funext t
  simp [past, hentry, Value.past_empty]

/-- Nothing comes before a heap that is past an empty one. -/
theorem Heap.past_empty (h : Heap) : h.past {} = h := by
  simp [past, Value.past_empty, Table.past_empty]

/-! ### Kinds and texts -/

variable {j : Heap}

@[simp] theorem SharedString.text_past (s : SharedString) : (s.past j).text = s.text := rfl

namespace Scalar

@[simp] theorem tag_past (s : Scalar) : (s.past j).tag = s.tag := by
  cases s <;> rfl

@[simp] theorem hash_past (s : Scalar) : (s.past j).hash = s.hash := by
  cases s <;> rfl

@[simp] theorem equals_past (s t : Scalar) : (s.past j).equals (t.past j) = s.equals t := by
  cases s <;> cases t <;> rfl

@[simp] theorem truthy_past (s : Scalar) : (s.past j).truthy = s.truthy := by
  cases s <;> rfl

@[simp] theorem textWith_past (string : String → String) (s : Scalar) :
    (s.past j).textWith string = s.textWith string := by
  cases s <;> rfl

@[simp] theorem text_past (s : Scalar) : (s.past j).text = s.text := textWith_past _ s

@[simp] theorem quotedText_past (s : Scalar) : (s.past j).quotedText = s.quotedText :=
  textWith_past _ s

end Scalar

namespace Ref

@[simp] theorem tag_past (r : Ref) : (r.past j).tag = r.tag := by
  cases r <;> rfl

@[simp] theorem bracketed_past (r : Ref) (inner : String) :
    (r.past j).bracketed inner = r.bracketed inner := by
  cases r <;> rfl

theorem past_injective : Function.Injective (Ref.past j) := by
  intro r s h
  cases r <;> cases s <;> simp_all [past]

@[simp] theorem past_inj {r s : Ref} : r.past j = s.past j ↔ r = s := past_injective.eq_iff

end Ref

namespace Value

@[simp] theorem tag_past (v : Value) : (v.past j).tag = v.tag := by
  cases v with
  | scalar s => exact s.tag_past
  | ref r => exact r.tag_past

@[simp] theorem isNil_past (v : Value) : (v.past j).isNil = v.isNil := by
  rcases v with (_ | _ | _ | _ | _) | _ <;> rfl

@[simp] theorem asNumber?_past (v : Value) : (v.past j).asNumber? = v.asNumber? := by
  rcases v with (_ | _ | _ | _ | _) | _ <;> rfl

@[simp] theorem toIndex?_past (v : Value) : (v.past j).toIndex? = v.toIndex? := by
  rcases v with (_ | _ | _ | _ | _) | _ <;> rfl

theorem eq_number_of_past {v : Value} {x : Number} (h : v.past j = .number x) :
    v = .number x := by
  rcases v with (_ | _ | _ | _ | _) | _
  case scalar.number => exact h
  all_goals cases h

theorem exists_string_of_past {v : Value} {s : SharedString} (h : v.past j = .string s) :
    ∃ t, v = .string t := by
  rcases v with (_ | _ | _ | t | _) | _
  case scalar.string => exact ⟨t, rfl⟩
  all_goals cases h

theorem toKey_past (v : Value) : (v.past j).toKey = v.toKey.map (Scalar.past j) := by
  cases v with
  | scalar s => rfl
  | ref r => exact congrArg (fun tag => Except.error (AccessError.notHashable tag)) r.tag_past

end Value

/-! ## Tables past a heap -/

namespace Table

variable (t : Table) (k : Scalar)

/-- A key is found where it was. -/
@[simp] theorem position?_past : (t.past j).position? (k.past j) = t.position? k := by
  have hkeys (p : Scalar → Bool) :
      (t.past j).entries.findIdx? (fun e => p e.key) =
        t.entries.findIdx? fun e => p (e.key.past j) :=
    List.findIdx?_map ..
  unfold position?
  rw [hkeys fun s => s.equals (k.past j) && s.hash == (k.past j).hash]
  simp only [Scalar.equals_past, Scalar.hash_past]
  cases t.entries.findIdx? _ with
  | some i => rfl
  | none =>
    cases k with
    | number x =>
      refine (hkeys fun s => s.equals (.number x)).trans ?_
      exact congrArg (t.entries.findIdx? ·) (funext fun e => Scalar.equals_past e.key (.number x))
    | nil | bool | string | function => rfl

@[simp] theorem getElem?_entries_past (i : Nat) :
    (t.past j).entries[i]? = t.entries[i]?.map (Entry.past j) :=
  List.getElem?_map ..

theorem find?_past : (t.past j).find? (k.past j) = (t.find? k).map (Entry.past j) := by
  unfold find?
  rw [position?_past]
  cases t.position? k with
  | none => rfl
  | some i => exact t.getElem?_entries_past i

theorem set_past (v : Value) (flags : Flags) :
    (t.past j).set (k.past j) (v.past j) flags = (t.set k v flags).past j := by
  unfold set
  rw [position?_past]
  cases t.position? k with
  | none => simp [past, Entry.past]
  | some i =>
    have hentries : (t.past j).entries.modify i (fun e => { e with value := v.past j, flags }) =
        (t.entries.modify i fun e => { e with value := v, flags }).map (Entry.past j) := by
      refine List.ext_getElem? fun place => ?_
      rw [List.getElem?_modify, getElem?_entries_past, List.getElem?_map, List.getElem?_modify]
      split <;> cases t.entries[place]? <;> rfl
    exact congrArg (fun entries => (⟨entries, t.prototype.map (Value.past j)⟩ : Table)) hentries

theorem eraseAt_past (i : Nat) : (t.past j).eraseAt i = (t.eraseAt i).past j := by
  simp [eraseAt, past, List.eraseIdx_map]

theorem publicEntries_past :
    (t.past j).publicEntries = t.publicEntries.map (Entry.past j) := by
  simp [publicEntries, past, List.filter_map, Function.comp_def, Entry.past]

end Table

/-! ## Containers past a heap -/

namespace Heap

variable (h : Heap)

/-- An array is read as it was. -/
@[simp] theorem items_past (id : Nat) :
    (h.past j).items (j.arrays.size + id) = (h.items id).map (Value.past j) := by
  simp only [items, past, Array.getD_eq_getD_getElem?]
  rw [Array.getElem?_append_right (Nat.le_add_right _ _), Nat.add_sub_cancel_left,
    Array.getElem?_map]
  cases h.arrays[id]? <;> simp

/-- A table is read as it was. -/
@[simp] theorem tableAt_past (id : Nat) :
    (h.past j).tableAt (j.tables.size + id) = (h.tableAt id).past j := by
  simp only [tableAt, past, Array.getD_eq_getD_getElem?]
  rw [Array.getElem?_append_right (Nat.le_add_right _ _), Nat.add_sub_cancel_left,
    Array.getElem?_map]
  cases h.tables[id]? <;> rfl

@[simp] theorem truthy_past (v : Value) : (h.past j).truthy (v.past j) = h.truthy v := by
  cases v with
  | scalar s => exact s.truthy_past
  | ref r =>
    cases r with
    | array id => simp [Value.past, Ref.past, truthy, Array.isEmpty]
    | table id => rfl

/-! ### Making and changing containers -/

/-- What is made past a heap. -/
def madePast (j : Heap) (made : Value × Heap) : Value × Heap :=
  (made.1.past j, made.2.past j)

theorem newString_past (text : String) :
    (h.past j).newString text = madePast j (h.newString text) := by
  rfl

theorem newHashedString_past (text : String) (hash : UInt64) :
    (h.past j).newHashedString text hash = madePast j (h.newHashedString text hash) := by
  rfl

theorem newArray_past (items : Array Value) :
    (h.past j).newArray (items.map (Value.past j)) = madePast j (h.newArray items) := by
  simp [newArray, madePast, past, Value.past, Ref.past]

theorem newTable_past (t : Table) :
    (h.past j).newTable (t.past j) = madePast j (h.newTable t) := by
  simp [newTable, madePast, past, Value.past, Ref.past]

variable {h}

theorem modifyItems_past {f g : Array Value → Array Value}
    (hf : ∀ xs, f (xs.map (Value.past j)) = (g xs).map (Value.past j)) (id : Nat) :
    (h.past j).modifyItems (j.arrays.size + id) f = (h.modifyItems id g).past j := by
  rw [modifyItems, modifyItems, past, past, modify_append_map hf]

theorem modifyTable_past {f g : Table → Table}
    (hf : ∀ t : Table, f (t.past j) = (g t).past j) (id : Nat) :
    (h.past j).modifyTable (j.tables.size + id) f = (h.modifyTable id g).past j := by
  rw [modifyTable, modifyTable, past, past, modify_append_map hf]

/-! ## Rendering past a heap -/

variable (h)

/-- The parts that are shown are the same, with the same texts before them. -/
theorem shown_past (r : Ref) :
    (h.past j).shown (r.past j) = (h.shown r).map fun part => (part.1, part.2.past j) := by
  cases r with
  | array id => simp [Ref.past, shown]
  | table id => simp [Ref.past, shown, Table.publicEntries_past, Entry.past]

/-- **A value is rendered as it was.** -/
theorem renderIn_past (opened : List Ref) (v : Value) :
    (h.past j).renderIn (opened.map (Ref.past j)) (v.past j) = h.renderIn opened v := by
  have hopened (opened : List Ref) (r : Ref) :
      r.past j ∈ opened.map (Ref.past j) ↔ r ∈ opened :=
    List.mem_map_of_injective Ref.past_injective
  induction opened, v using renderIn.induct h with
  | case1 opened s hempty => simp_all [Value.past, renderIn]
  | case2 opened s hempty => simp_all [Value.past, renderIn]
  | case3 opened r hr =>
    rw [Value.past, renderIn, dif_pos ((hopened opened r).2 hr), renderIn, dif_pos hr,
      Ref.bracketed_past]
  | case4 opened r hr ih =>
    have hparts : ((h.past j).shown (r.past j)).map (fun part =>
        part.1 ++ (h.past j).renderIn ((r :: opened).map (Ref.past j)) part.2) =
        (h.shown r).map fun part => part.1 ++ h.renderIn (r :: opened) part.2 := by
      rw [shown_past, List.map_map]
      exact List.map_congr_left fun part hpart => congrArg (part.1 ++ ·) (ih part.1 part.2 hpart)
    rw [Value.past, renderIn_ref _ (mt (hopened opened r).1 hr), renderIn_ref h hr,
      Ref.bracketed_past, ← hparts]
    rfl

/-- The text of a value is the same. -/
@[simp] theorem render_past (v : Value) : (h.past j).render (v.past j) = h.render v :=
  renderIn_past h [] v

/-! ## Equality past a heap -/

/-- The pairs of parts that are compared are the same. -/
theorem paired?_past (r s : Ref) :
    (h.past j).paired? (r.past j) (s.past j) =
      (h.paired? r s).map (List.map (Prod.map (Value.past j) (Value.past j))) := by
  cases r with
  | array a =>
    cases s with
    | array b =>
      simp only [Ref.past, paired?, items_past, Array.size_map]
      split
      · simp [List.zip_map]
      · rfl
    | table b => rfl
  | table a =>
    cases s with
    | array b => rfl
    | table b =>
      have hpartner (e : Entry) :
          (((h.tableAt b).past j).find? (e.past j).key).map (fun o => ((e.past j).value, o.value)) =
            (((h.tableAt b).find? e.key).map fun o => (e.value, o.value)).map
              (Prod.map (Value.past j) (Value.past j)) := by
        rw [Entry.past, Table.find?_past]
        cases (h.tableAt b).find? e.key <;> rfl
      simp only [Ref.past, paired?, tableAt_past]
      have hlength (t : Table) : (t.past j).entries.length = t.entries.length := List.length_map _
      rw [hlength, hlength]
      split
      · exact mapM_map hpartner _
      · rfl

/-- **Two values are equal when they were.** -/
theorem equalsIn_past (active : List (Ref × Ref)) (a b : Value) :
    (h.past j).equalsIn (active.map (Prod.map (Ref.past j) (Ref.past j))) (a.past j) (b.past j) =
      h.equalsIn active a b := by
  have hactive (active : List (Ref × Ref)) (r s : Ref) :
      (r.past j, s.past j) ∈ active.map (Prod.map (Ref.past j) (Ref.past j)) ↔ (r, s) ∈ active := by
    show Prod.map (Ref.past j) (Ref.past j) (r, s) ∈ _ ↔ _
    exact List.mem_map_of_injective (Ref.past_injective.prodMap Ref.past_injective)
  induction active, a, b using equalsIn.induct h with
  | case1 active s t =>
    rw [Value.past, Value.past, equalsIn, equalsIn, Scalar.equals_past]
  | case2 active r => simp [Value.past, equalsIn]
  | case3 active r s hne hmem =>
    rw [Value.past, Value.past, equalsIn, equalsIn, if_neg hne, dif_pos hmem,
      if_neg (mt Ref.past_inj.1 hne), dif_pos ((hactive active r s).2 hmem)]
  | case4 active r s hne hmem hp =>
    rw [Value.past, Value.past, equalsIn_ref hne hmem,
      equalsIn_ref (mt Ref.past_inj.1 hne) (mt (hactive active r s).1 hmem), paired?_past, hp]
    rfl
  | case5 active r s hne hmem pairs hp ih =>
    rw [Value.past, Value.past, equalsIn_ref hne hmem,
      equalsIn_ref (mt Ref.past_inj.1 hne) (mt (hactive active r s).1 hmem), paired?_past, hp]
    simp only [Option.map_some, Option.any_some, List.all_map]
    rw [Bool.eq_iff_iff, List.all_eq_true, List.all_eq_true]
    refine forall₂_congr fun pair hpair => ?_
    rw [← ih pair.1 pair.2 hpair]
    rfl
  | case6 active a b hs hr =>
    cases a with
    | scalar s =>
      cases b with
      | scalar t => exact absurd rfl (hs s t rfl)
      | ref t => simp [Value.past, equalsIn]
    | ref s =>
      cases b with
      | scalar t => simp [Value.past, equalsIn]
      | ref t => exact absurd rfl (hr s t rfl)

theorem equals_past (a b : Value) : (h.past j).equals (a.past j) (b.past j) = h.equals a b :=
  equalsIn_past h [] a b

/-! ## Access past a heap -/

/-- A key names the place that it named. -/
@[simp] theorem index_past (key : Value) : (h.past j).index (key.past j) = h.index key := by
  simp only [index, Value.toIndex?_past, render_past]

theorem item_past (id : Nat) (key : Value) :
    (h.past j).item (j.arrays.size + id) (key.past j) = (h.item id key).map (Value.past j) := by
  simp only [item, index_past, items_past, bind, Except.bind]
  cases h.index key with
  | error e => rfl
  | ok i =>
    simp only [Array.getElem?_map, Array.size_map]
    cases (h.items id)[i]? <;> rfl

/-- What a table leaves to its prototype is looked for in the same place. -/
private theorem missing_past {k : Scalar} {rest rest' : Nat → Except AccessError Value}
    (hrest : ∀ id, rest' (j.tables.size + id) = (rest id).map (Value.past j))
    (prototype : Option Value) :
    (match prototype.map (Value.past j) with
      | none => .error (.keyNotFound (k.past j).text)
      | some (.scalar s) => .error (.notIndexable s.tag)
      | some (.array a) => (h.past j).item a (.scalar (k.past j))
      | some (.table next) => rest' next) =
    Except.map (Value.past j) (match prototype with
      | none => .error (.keyNotFound k.text)
      | some (.scalar s) => .error (.notIndexable s.tag)
      | some (.array a) => h.item a (.scalar k)
      | some (.table next) => rest next) := by
  cases prototype with
  | none => simp only [Option.map_none, Scalar.text_past, Except.map]
  | some v =>
    rcases v with s | a | next
    · exact congrArg (fun tag => Except.error (AccessError.notIndexable tag)) s.tag_past
    · exact item_past h a (.scalar k)
    · exact hrest next

/-- **A chain of prototypes is followed as it was.** -/
theorem lookupWithin_past (links id : Nat) (k : Scalar) :
    (h.past j).lookupWithin links (j.tables.size + id) (k.past j) =
      (h.lookupWithin links id k).map (Value.past j) := by
  induction links generalizing id with
  | zero =>
    unfold lookupWithin
    rw [tableAt_past, Table.find?_past]
    cases (h.tableAt id).find? k with
    | some e => rfl
    | none => exact missing_past h (fun _ => rfl) (h.tableAt id).prototype
  | succ links ih =>
    unfold lookupWithin
    rw [tableAt_past, Table.find?_past]
    cases (h.tableAt id).find? k with
    | some e => rfl
    | none => exact missing_past h ih (h.tableAt id).prototype

theorem get_past (container key : Value) :
    (h.past j).get (container.past j) (key.past j) =
      (h.get container key).map (Value.past j) := by
  cases container with
  | scalar s => exact congrArg (fun tag => Except.error (AccessError.notIndexable tag)) s.tag_past
  | ref r =>
    cases r with
    | array id => exact item_past h id key
    | table id =>
      show ((key.past j).toKey >>= _) = Except.map _ (key.toKey >>= _)
      rw [Value.toKey_past]
      cases key.toKey with
      | error e => rfl
      | ok k => exact lookupWithin_past h chainLimit id k

theorem setEntry_past (id : Nat) (key value : Value) (flags : Flags) :
    (h.past j).setEntry (j.tables.size + id) (key.past j) (value.past j) flags =
      (h.setEntry id key value flags).map (Heap.past · j) := by
  unfold setEntry
  rw [Value.toKey_past]
  cases key.toKey with
  | error e => rfl
  | ok k => exact congrArg Except.ok (modifyTable_past (fun t => t.set_past k value flags) id)

theorem setItem_past (id : Nat) (key value : Value) :
    (h.past j).setItem (j.arrays.size + id) (key.past j) (value.past j) =
      (h.setItem id key value).map (Heap.past · j) := by
  simp only [setItem, index_past, items_past, Array.size_map, bind, Except.bind]
  cases h.index key with
  | error e => rfl
  | ok i =>
    dsimp only
    split
    · exact congrArg Except.ok (modifyItems_past (fun xs => by simp) id)
    · split
      · exact congrArg Except.ok (modifyItems_past (fun xs => by simp) id)
      · rfl

/-- **Writing does what it did.** -/
theorem set_past (container key value : Value) :
    (h.past j).set (container.past j) (key.past j) (value.past j) =
      (h.set container key value).map (Heap.past · j) := by
  cases container with
  | scalar s => exact congrArg (fun tag => Except.error (AccessError.notIndexable tag)) s.tag_past
  | ref r =>
    cases r with
    | array id => exact setItem_past h id key value
    | table id => exact setEntry_past h id key value .standard

theorem deleteItem_past (id : Nat) (key : Value) :
    (h.past j).deleteItem (j.arrays.size + id) (key.past j) =
      (h.deleteItem id key).map (madePast j) := by
  simp only [deleteItem, index_past, items_past, Array.size_map, bind, Except.bind]
  cases h.index key with
  | error e => rfl
  | ok i =>
    simp only [Array.getElem?_map]
    cases (h.items id)[i]? with
    | none => rfl
    | some v =>
      refine congrArg (fun left => Except.ok (v.past j, left)) (modifyItems_past (fun xs => ?_) id)
      exact (map_eraseIdxIfInBounds _ xs i).symm

theorem deleteEntry_past (id : Nat) (key : Value) :
    (h.past j).deleteEntry (j.tables.size + id) (key.past j) =
      (h.deleteEntry id key).map (madePast j) := by
  unfold deleteEntry
  rw [Value.toKey_past, tableAt_past]
  cases key.toKey with
  | error e => rfl
  | ok k =>
    simp only [Except.map, bind, Except.bind, Table.position?_past, Scalar.text_past]
    cases (h.tableAt id).position? k with
    | none => rfl
    | some i =>
      simp only [Table.getElem?_entries_past]
      cases (h.tableAt id).entries[i]? with
      | none => rfl
      | some e =>
        exact congrArg (fun left => Except.ok (e.value.past j, left))
          (modifyTable_past (fun t => t.eraseAt_past i) id)

/-- **Deleting does what it did.** -/
theorem delete_past (container key : Value) :
    (h.past j).delete (container.past j) (key.past j) =
      (h.delete container key).map (madePast j) := by
  cases container with
  | scalar s => exact congrArg (fun tag => Except.error (AccessError.notIndexable tag)) s.tag_past
  | ref r =>
    cases r with
    | array id => exact deleteItem_past h id key
    | table id => exact deleteEntry_past h id key

end Heap
end StackMachine
