import StackMachine.Machine.Execute
import StackMachine.Proofs.Value.Difference

/-!
# Symmetry of equality

Tables are compared from one side: as many entries, and every key of the first finds an entry in
the second. That is symmetric when no two keys of the first find one entry, for then every entry of
the second is found, and the key of the one that found it finds it back. Keys that count as equal
need not have the same neighbours, so two numbers of one table may both be near a number of
another, and then one table may be equal to the other but not the other to the one
(`near_keys_break_symmetry`). Nothing else breaks the symmetry: in a heap where two numbers near a
third one are near each other, equality does not depend on the order of the values.
-/

namespace StackMachine

/-! ## Tables that were built -/

/-- A table that is made from an empty one: keys are set, entries that a key finds are deleted, and
it is given prototypes. -/
inductive Table.Built : Table → Prop
  | empty : Built {}
  | set {t : Table} (ht : t.Built) (key : Scalar) (value : Value) (flags : Flags) :
    Built (t.set key value flags)
  | delete {t : Table} (ht : t.Built) {key : Scalar} {i : Nat} (hi : t.position? key = some i) :
    Built (t.eraseAt i)
  | derive {t : Table} (ht : t.Built) (prototype : Option Value) : Built { t with prototype }

theorem Table.Built.apart {t : Table} (ht : t.Built) : (StoredTable.ofTable t).Apart := by
  induction ht with
  | empty => exact StoredTable.apart_nil
  | set _ key value flags ih =>
    exact ih.perform (a := .set (.scalar key) value flags) KeyIndex.exact_scan
      (StoredTable.set_ofTable ..)
  | @delete t _ key i _ ih =>
    have herase : (StoredTable.ofTable t).eraseIdx i = StoredTable.ofTable (t.eraseAt i) :=
      List.eraseIdx_map ..
    exact herase ▸ ih.eraseIdx i
  | derive _ prototype ih => exact ih

theorem Table.Built.knowsKeys {t : Table} (ht : t.Built) : t.KnowsKeys :=
  (ht.apart.knowsKeys KeyIndex.exact_scan).ofTable

/-! ## Keys near each other -/

namespace Heap

variable {h : Heap}

/-- Two number keys of one table that are both near a number key of another table are near each
other. -/
def NearKeysAgree (h : Heap) : Prop :=
  ∀ (i j : Nat) (x y z : Number), .number x ∈ (h.tableAt i).entries.map Entry.key →
    .number y ∈ (h.tableAt i).entries.map Entry.key →
    .number z ∈ (h.tableAt j).entries.map Entry.key →
      x.equals z = true → y.equals z = true → x.equals y = true

theorem NearKeysAgree.equals (hkeys : h.NearKeysAgree) {i j : Nat} {e e' f : Entry}
    (he : e ∈ (h.tableAt i).entries) (he' : e' ∈ (h.tableAt i).entries)
    (hf : f ∈ (h.tableAt j).entries) (hef : e.key.equals f.key = true)
    (hef' : e'.key.equals f.key = true) : e.key.equals e'.key = true := by
  have hk := List.mem_map_of_mem (f := Entry.key) he
  have hk' := List.mem_map_of_mem (f := Entry.key) he'
  have hl := List.mem_map_of_mem (f := Entry.key) hf
  generalize e.key = k at hk hef ⊢
  generalize e'.key = k' at hk' hef' ⊢
  generalize f.key = l at hl hef hef'
  cases l with
  | number z =>
    cases k with
    | number x =>
      cases k' with
      | number y => exact hkeys i j x y z hk hk' hl hef hef'
      | _ => contradiction
    | _ => contradiction
  | _ => exact Scalar.equals_of_equals hef hef' nofun

/-! ## Entries that find each other -/

section

variable (hknows : ∀ id, (h.tableAt id).KnowsKeys) (hkeys : h.NearKeysAgree)

include hknows hkeys

/-- The places that the keys of a table find in another one are different. -/
theorem place_injective {i j k l m : Nat} {e e' : Entry}
    (he : (h.tableAt i).entries[k]? = some e) (he' : (h.tableAt i).entries[l]? = some e')
    (hm : (h.tableAt j).position? e.key = some m)
    (hm' : (h.tableAt j).position? e'.key = some m) : k = l := by
  obtain ⟨f, hf, hfe⟩ := Table.exists_of_position?_eq_some hm
  obtain ⟨f', hf', hfe'⟩ := Table.exists_of_position?_eq_some hm'
  obtain rfl : f = f' := Option.some.inj (hf.symm.trans hf')
  refine (hknows i).apart k l e e' he he' ?_
  rw [Scalar.equals_comm] at hfe hfe'
  exact hkeys.equals (List.mem_of_getElem? he) (List.mem_of_getElem? he')
    (List.mem_of_getElem? hf) hfe hfe'

/-- **Tables that do not clash find each other.** An entry of the second is the one that some key of
the first finds, since there are as many places as keys, and its own key finds the entry of that
key. -/
theorem exists_found_back {i j : Nat} (hij : i ≠ j) (hagree : ¬h.Clash (.table i, .table j))
    {m : Nat} {f : Entry} (hf : (h.tableAt j).entries[m]? = some f) :
    ∃ k e, (h.tableAt i).entries[k]? = some e ∧ (h.tableAt j).position? e.key = some m ∧
      (h.tableAt i).position? f.key = some k := by
  have hlength : (h.tableAt i).entries.length = (h.tableAt j).entries.length := by
    by_contra hne
    exact hagree (.entries hij hne)
  have hplace (k : Fin (h.tableAt i).entries.length) :
      ∃ m : Fin (h.tableAt i).entries.length,
        (h.tableAt j).position? ((h.tableAt i).entries[k]).key = some m := by
    cases hm : (h.tableAt j).position? ((h.tableAt i).entries[k]).key with
    | none => exact absurd (.missing hij (List.getElem_mem k.isLt) hm) hagree
    | some m =>
      obtain ⟨o, ho, -⟩ := Table.exists_of_position?_eq_some hm
      have hlt := (List.getElem?_eq_some_iff.1 ho).1
      exact ⟨⟨m, hlength ▸ hlt⟩, rfl⟩
  choose place hplace using hplace
  have hinjective : Function.Injective place := by
    intro k l hkl
    have hk := hplace k
    rw [hkl] at hk
    exact Fin.ext (place_injective hknows hkeys (List.getElem?_eq_getElem k.isLt)
      (List.getElem?_eq_getElem l.isLt) hk (hplace l))
  have hm : m < (h.tableAt i).entries.length := hlength ▸ (List.getElem?_eq_some_iff.1 hf).1
  obtain ⟨k, hk⟩ := Finite.injective_iff_surjective.1 hinjective ⟨m, hm⟩
  have hfound := hplace k
  rw [hk] at hfound
  have he : (h.tableAt i).entries[k.val]? = some ((h.tableAt i).entries[k]) :=
    List.getElem?_eq_getElem k.isLt
  refine ⟨k, _, he, hfound, ?_⟩
  obtain ⟨f', hf', hequals⟩ := Table.exists_of_position?_eq_some hfound
  obtain rfl : f = f' := Option.some.inj (hf.symm.trans hf')
  rw [Scalar.equals_comm] at hequals
  cases hl : (h.tableAt i).position? f.key with
  | none =>
    rw [(hknows i).missing _ hl _ (List.mem_of_getElem? he)] at hequals
    contradiction
  | some l =>
    obtain ⟨e', he', hequals'⟩ := Table.exists_of_position?_eq_some hl
    have hsame := hkeys.equals (List.mem_of_getElem? he') (List.mem_of_getElem? he)
      (List.mem_of_getElem? hf) hequals' hequals
    rw [(hknows i).apart l k _ _ he' he hsame]

/-! ## Differences from the other side -/

theorem Clash.swap {p : Value × Value} (hp : h.Clash p) : h.Clash p.swap := by
  cases hp with
  | tags hne => exact .tags hne.symm
  | scalars hne => exact .scalars (Scalar.equals_comm .. ▸ hne)
  | items hij hne => exact .items hij.symm hne.symm
  | entries hij hne => exact .entries hij.symm hne.symm
  | missing hij he hnone =>
    by_contra hagree
    obtain ⟨n, hn⟩ := List.mem_iff_getElem?.1 he
    obtain ⟨_, _, _, _, hfound⟩ := exists_found_back hknows hkeys hij.symm hagree hn
    rw [hnone] at hfound
    contradiction

theorem Below.swap {p q : Value × Value} (hq : h.Below p q) (hp : ¬h.Clash p.swap) :
    h.Below p.swap q.swap := by
  cases hq with
  | item hij hx hy => exact .item hij.symm hy hx
  | entry hij he hn ho =>
    obtain ⟨m, hm⟩ := List.mem_iff_getElem?.1 he
    obtain ⟨k, f, hf, hback, hfound⟩ := exists_found_back hknows hkeys hij.symm hp hm
    obtain rfl : _ = k := Option.some.inj (hn.symm.trans hfound)
    obtain rfl : _ = f := Option.some.inj (ho.symm.trans hf)
    exact .entry hij.symm (List.mem_of_getElem? hf) hback hm

theorem DiffersWithin.swap {n : Nat} {p : Value × Value} (hn : h.DiffersWithin n p) :
    ∃ m, h.DiffersWithin m p.swap := by
  induction hn with
  | clash hp => exact ⟨0, .clash (hp.swap hknows hkeys)⟩
  | @step n p q hq _ ih =>
    by_cases hp : h.Clash p.swap
    · exact ⟨0, .clash hp⟩
    · obtain ⟨m, hm⟩ := ih
      exact ⟨m + 1, .step (hq.swap hknows hkeys hp) hm⟩

theorem equals_swap (a b : Value) : h.equals a b = h.equals b a := by
  have hswap {a b : Value} (hab : h.equals a b = false) : h.equals b a = false := by
    obtain ⟨n, hn⟩ := equals_eq_false_iff.1 hab
    exact equals_eq_false_iff.2 (hn.swap hknows hkeys)
  cases hab : h.equals a b with
  | false => exact (hswap hab).symm
  | true =>
    cases hba : h.equals b a with
    | true => rfl
    | false =>
      rw [hswap hba] at hab
      contradiction

end

/-! ## Keys that do not agree -/

/-- **Two numbers near a third one break the symmetry** unless they are near each other: the table
that has both as keys is equal to the table that has the third one and another key, which is not
equal to it. -/
theorem near_keys_break_symmetry {x y z : Number} (hxz : x.equals z = true)
    (hyz : y.equals z = true) (hxy : x.equals y = false) :
    let t := (({} : Table).set (.number x) .nil .standard).set (.number y) .nil .standard
    let u := (({} : Table).set (.number z) .nil .standard).set .nil .nil .standard
    let h : Heap := { tables := #[t, u] }
    h.equals (.table 0) (.table 1) = true ∧ h.equals (.table 1) (.table 0) = false := by
  intro t u h
  have ht : t.entries = [⟨.number x, .nil, .standard⟩, ⟨.number y, .nil, .standard⟩] := by
    simp [t, Table.set, Table.position?, Scalar.equals, hxy]
  have hu : u.entries = [⟨.number z, .nil, .standard⟩, ⟨.nil, .nil, .standard⟩] := by
    simp [u, Table.set, Table.position?, Scalar.equals]
  have htu : Ref.table 0 ≠ .table 1 := by decide
  constructor
  · have hfound {k : Number} (hk : k.equals z = true) :
        u.find? (.number k) = some ⟨.number z, .nil, .standard⟩ := by
      rw [Number.equals_comm] at hk
      rw [Table.find?, Table.position?, hu]
      by_cases hhash : (Scalar.number z).hash = (Scalar.number k).hash <;>
        simp [List.findIdx?_cons, Scalar.equals, hk, hhash]
    have hpaired : h.paired? (.table 0) (.table 1) = some [(.nil, .nil), (.nil, .nil)] := by
      show (if t.entries.length = u.entries.length then t.entries.mapM _ else none) = _
      rw [if_pos (by rw [ht, hu]; rfl), ht]
      simp [Heap.tableAt, h, hfound hxz, hfound hyz]
    rw [equals, equalsIn_ref htu List.not_mem_nil, hpaired]
    simp [equalsIn, Scalar.equals]
  · have hmissing : t.position? .nil = none := by
      simp [Table.position?, ht, Scalar.equals, List.findIdx?_cons]
    refine equals_eq_false_iff.2 ⟨0, .clash (.missing (by decide) (e := ⟨.nil, .nil, .standard⟩) ?_
      hmissing)⟩
    show _ ∈ u.entries
    simp [hu]

/-- **Equality is symmetric where near keys agree.** In a heap whose tables are built by setting and
deleting keys, and where two number keys of a table that are near one of another table are near each
other, the order of two values does not matter to equality, nor to what the machine makes of them
when it compares them. -/
theorem equals_symmetric (h : Heap) (hbuilt : ∀ id, (h.tableAt id).Built)
    (hkeys : h.NearKeysAgree) (a b : Value) :
    h.equals a b = h.equals b a ∧
    ∀ m : Machine, m.heap = h → ∀ op ∈ [Opcode.eq, Opcode.ne],
      Machine.binary op a b m = Machine.binary op b a m := by
  have hswap := equals_swap (fun id => (hbuilt id).knowsKeys) hkeys a b
  refine ⟨hswap, ?_⟩
  rintro m rfl op hop
  simp only [List.mem_cons, List.not_mem_nil, or_false] at hop
  rcases hop with rfl | rfl
  · exact congrArg (fun same => EStateM.Result.ok (Value.bool same) m) hswap
  · exact congrArg (fun same => EStateM.Result.ok (Value.bool !same) m) hswap

/-- Zero and 2⁻⁵² are both near 2⁻⁵³ and not near each other: a table with these keys is equal to
one that is not equal to it. Tables with the keys zero and one agree, in either order. -/
theorem near_numbers_compared :
    let zero : Number := ⟨0⟩
    let half : Number := ⟨0x3ca0000000000000⟩
    let epsilon : Number := ⟨0x3cb0000000000000⟩
    let one : Number := ⟨0x3ff0000000000000⟩
    let pair (x y : Scalar) : Table := ({} : Table).set x .nil .standard |>.set y .nil .standard
    let near : Heap :=
      { tables := #[pair (.number zero) (.number epsilon), pair (.number half) .nil] }
    let far : Heap :=
      { tables := #[pair (.number zero) (.number one), pair (.number one) (.number zero)] }
    ((∀ id, (near.tableAt id).Built) ∧ ¬near.NearKeysAgree ∧
        near.equals (.table 0) (.table 1) = true ∧ near.equals (.table 1) (.table 0) = false) ∧
      (∀ id, (far.tableAt id).Built) ∧ far.NearKeysAgree ∧
        far.equals (.table 0) (.table 1) = far.equals (.table 1) (.table 0) := by
  intro zero half epsilon one pair near far
  have hpair (x y : Scalar) : (pair x y).Built := (Table.Built.empty.set ..).set ..
  have hbuilt (t u : Table) (ht : t.Built) (hu : u.Built) (id : Nat) :
      (tableAt { tables := #[t, u] } id).Built := by
    match id with
    | 0 => exact ht
    | 1 => exact hu
    | _ + 2 => exact .empty
  have hnear : ∀ id, (near.tableAt id).Built := hbuilt _ _ (hpair ..) (hpair ..)
  have hfar : ∀ id, (far.tableAt id).Built := hbuilt _ _ (hpair ..) (hpair ..)
  have hbroken : near.equals (.table 0) (.table 1) = true ∧
      near.equals (.table 1) (.table 0) = false :=
    near_keys_break_symmetry (x := zero) (y := epsilon) (z := half) (by decide +kernel)
      (by decide +kernel) (by decide +kernel)
  have hkeys (i : Nat) : ∀ k ∈ (far.tableAt i).entries.map Entry.key,
      k = .number zero ∨ k = .number one := by
    match i with
    | 0 => decide +kernel
    | 1 => decide +kernel
    | _ + 2 => exact nofun
  have hagree : far.NearKeysAgree := by
    intro i j x y z hx hy hz
    have hx := hkeys i _ hx
    have hy := hkeys i _ hy
    have hz := hkeys j _ hz
    simp only [Scalar.number.injEq] at hx hy hz
    rcases hx with rfl | rfl <;> rcases hy with rfl | rfl <;> rcases hz with rfl | rfl <;>
      decide +kernel
  refine ⟨⟨hnear, ?_, hbroken⟩, hfar, hagree, (equals_symmetric far hfar hagree _ _).1⟩
  intro hagree
  have hsame := (equals_symmetric near hnear hagree (.table 0) (.table 1)).1
  rw [hbroken.1, hbroken.2] at hsame
  contradiction

end Heap
end StackMachine
