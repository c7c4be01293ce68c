import StackMachine.Proofs.Assembly.Composition
import StackMachine.Proofs.Listing.Meaning

/-!
# Programs assembled again

The operations of a program spelled as calls, without labels: an address is an integer, and a string
operand is the text at its place. Since a pool is in the order of its operands, these calls assemble
the program again, and every listing that spells them is a listing of the program.
-/

namespace StackMachine.Listing

variable {p : Program} {xs : List (Opcode × Argument)} {known : List String} {a : Assembly}

/-! ## Calls without labels -/

/-- The text at a place of a pool. -/
def textAt (strings : Array PoolEntry) (index : UInt32) : String :=
  (strings[index.toNat]?.map PoolEntry.text).getD ""

theorem textAt_eq {strings : Array PoolEntry} {index : UInt32} {e : PoolEntry}
    (h : strings[index.toNat]? = some e) : textAt strings index = e.text := by
  rw [textAt, h]
  rfl

/-- The call that emits an operation, where a string operand is the text at its place in a pool. -/
def callOf (strings : Array PoolEntry) : Opcode × Argument → Call
  | (op, .none) => .emit op
  | (op, .u8 n) => .emitWith op (.u8 n)
  | (op, .u16 n) => .emitWith op (.u16 n)
  | (op, .u32 n) => .emitWith op (.u32 n)
  | (op, .u64 n) => .emitWith op (.u64 n)
  | (op, .f64 x) => .emitWith op (.f64 x)
  | (op, .string index) => .emitWith op (.text (textAt strings index))

theorem noted_callOf (strings : Array PoolEntry) (x : Opcode × Argument) :
    (callOf strings x).noted known = known := by
  obtain ⟨op, arg⟩ := x
  cases arg <;> rfl

theorem definedIn_callOf (strings : Array PoolEntry) (xs : List (Opcode × Argument)) :
    definedIn (xs.map (callOf strings)) = [] := by
  rw [definedIn, List.filterMap_map, List.filterMap_eq_nil_iff]
  rintro ⟨op, arg⟩ -
  cases arg <;> rfl

/-! ## Assembling -/

/-- An operation without a text is emitted as it is. -/
theorem performAll_callOf {strings : Array PoolEntry} {x : Opcode × Argument}
    (hshape : x.2.shape = x.1.shape) (htext : x.2.textIndex? = none) (a : Assembly) :
    a.performAll ((callOf strings x).steps known) = .ok (a.append (operationBytes x)) := by
  obtain ⟨op, arg⟩ := x
  cases arg with
  | string index => contradiction
  | none =>
    have hnone : op.shape = .none := hshape.symm
    rw [callOf, Call.steps, Assembly.performAll_singleton, Assembly.perform, Assembly.emit,
      if_pos hnone]
    rfl
  | _ =>
    rw [callOf, Call.steps, Assembly.performAll_singleton, Assembly.perform, Assembly.emitWith]
    split
    · next hne => exact absurd hshape hne
    · rfl

/-- A string operand that names the next place of the pool is emitted with the entry of that
place. -/
theorem performAll_callOf_string {strings : Array PoolEntry} {op : Opcode} {index : UInt32}
    (hshape : op.shape = .string) (hindex : index.toNat = a.strings.size) {e : PoolEntry}
    (he : strings[a.strings.size]? = some e) (hgenuine : e.Genuine) :
    a.performAll ((callOf strings (op, .string index)).steps known) =
      .ok { a.append (operationBytes (op, .string index)) with strings := a.strings.push e } := by
  have hroom : a.strings.size < UInt32.size := hindex ▸ index.toNat_lt
  have hnumber : UInt32.ofNat a.strings.size = index := by rw [← hindex, UInt32.ofNat_toNat]
  have hentry : PoolEntry.ofText e.text = e := hgenuine.symm
  rw [callOf, textAt, hindex, he, Call.steps, Assembly.performAll_singleton, Assembly.perform,
    Assembly.emitWith]
  split
  · next hne => exact absurd hshape.symm hne
  · simp only [hnumber, Option.map_some, Option.getD_some, hentry]
    rfl

/-- What an array begins with, and the next element. -/
theorem prefix_push {α : Type} {xs ys : Array α} {y : α} (h : xs.toList <+: ys.toList)
    (hy : ys[xs.size]? = some y) : (xs.push y).toList <+: ys.toList := by
  obtain ⟨rest, hrest⟩ := h
  rw [← Array.getElem?_toList, ← hrest, ← Array.length_toList,
    List.getElem?_append_right (Nat.le_refl _), Nat.sub_self] at hy
  cases rest with
  | nil => contradiction
  | cons z rest =>
    obtain rfl := Option.some.inj hy
    exact ⟨rest, by simpa using hrest⟩

/-- **The calls of operations** add their bytes and the entries that they name, when these are the
next ones of the pool. -/
theorem performAll_stepsFrom_callOf (known : List String) {strings : Array PoolEntry}
    (hgenuine : ∀ e ∈ strings, e.Genuine) (hshape : ∀ x ∈ xs, x.2.shape = x.1.shape)
    (hindices : textIndices xs =
      List.range' a.strings.size (strings.size - a.strings.size))
    (hpool : a.strings.toList <+: strings.toList) :
    ∃ b, a.performAll (stepsFrom known (xs.map (callOf strings))) = .ok b ∧
      b.code.toList = a.code.toList ++ xs.flatMap operationBytes ∧ b.strings = strings ∧
      b.labels = a.labels := by
  induction xs generalizing a with
  | nil =>
    have hlength := hpool.length_le
    have hempty : strings.size - a.strings.size = 0 := by
      simpa [textIndices] using (congrArg List.length hindices).symm
    simp only [Array.length_toList] at hlength
    have hsame := hpool.eq_of_length (by simp only [Array.length_toList]; omega)
    exact ⟨a, rfl, by simp, Array.toList_inj.1 hsame, rfl⟩
  | cons x xs ih =>
    rw [List.map_cons, stepsFrom, noted_callOf]
    rw [textIndices_cons] at hindices
    have hx := hshape x List.mem_cons_self
    have hxs : ∀ y ∈ xs, y.2.shape = y.1.shape := fun y hy => hshape y (List.mem_cons_of_mem _ hy)
    cases hindex : x.2.textIndex? with
    | none =>
      rw [Assembly.performAll_append_of_ok (performAll_callOf hx hindex a)]
      rw [hindex] at hindices
      obtain ⟨b, hb, hcode, hrest⟩ := ih (a := a.append (operationBytes x)) hxs hindices hpool
      exact ⟨b, hb, by simp [hcode], hrest⟩
    | some k =>
      obtain ⟨op, arg⟩ := x
      cases arg with
      | string index =>
        obtain rfl : index.toNat = k := Option.some.inj hindex
        rw [hindex] at hindices
        -- The places that are left begin with the one that the operand names.
        obtain ⟨left, hleft⟩ : ∃ left, strings.size - a.strings.size = left + 1 := by
          refine Nat.exists_eq_succ_of_ne_zero fun hnone => ?_
          rw [hnone] at hindices
          contradiction
        rw [hleft, List.range'_succ] at hindices
        obtain ⟨hplace, hrest⟩ := List.cons.inj hindices
        have hlt : a.strings.size < strings.size := by omega
        have he : strings[a.strings.size]? = some strings[a.strings.size] :=
          Array.getElem?_eq_getElem hlt
        rw [Assembly.performAll_append_of_ok (performAll_callOf_string hx.symm hplace he
          (hgenuine _ (Array.getElem_mem hlt)))]
        have hnext : textIndices xs = List.range' (a.strings.push strings[a.strings.size]).size
            (strings.size - (a.strings.push strings[a.strings.size]).size) := by
          rw [Array.size_push, show strings.size - (a.strings.size + 1) = left by omega]
          exact hrest
        obtain ⟨b, hb, hcode, hstrings, hlabels⟩ :=
          ih (a := { a.append (operationBytes (op, .string index)) with
            strings := a.strings.push strings[a.strings.size] }) hxs hnext
            (prefix_push hpool he)
        exact ⟨b, hb, by simp [hcode], hstrings, hlabels⟩
      | _ => contradiction

/-! ## Listings of a program -/

/-- **A program is assembled again from its operations.** -/
theorem exists_performAll_callOf (hp : p.MadeOf xs) :
    ∃ a, Assembly.performAll {} (stepsFrom [] (xs.map (callOf p.strings))) = .ok a ∧
      a.finish = .ok p := by
  obtain ⟨a, ha, hcode, hstrings, hlabels⟩ :=
    performAll_stepsFrom_callOf [] (a := {}) hp.genuine hp.shaped
      (by rw [hp.indices, List.range_eq_range']; rfl) (List.nil_prefix)
  refine ⟨a, ha, ?_⟩
  have hcode : a.code = p.code := Array.toList_inj.1 (by rw [hcode, hp.code]; rfl)
  rw [Assembly.finish, hlabels, hcode, hstrings]
  rfl

/-- **A listing that spells the operations of a program** is assembled to that program. -/
theorem assembleLexemes_of_spells (hp : p.MadeOf xs) {lexemes : List Lexeme}
    (hspells : Spells (lexemes.map Lexeme.token) (xs.map (callOf p.strings))) :
    assembleLexemes lexemes = .ok p := by
  obtain ⟨a, ha, hfinish⟩ := exists_performAll_callOf hp
  have hfeasible : Reader.Feasible (xs.map (callOf p.strings)) :=
    ⟨by rw [definedIn_callOf]; exact .nil, a, ha⟩
  obtain ⟨r, hlines, hfollows⟩ :=
    Reader.reads_lines.complete Reader.follows_empty hspells hfeasible
  obtain rfl : r.assembly = a := Except.ok.inj (hfollows.performed.symm.trans ha)
  rw [assembleLexemes, hlines]
  exact finish_eq_ok_iff.2 hfinish

/-- The program of a listing is made of operations. -/
theorem exists_madeOf_of_assemble {source : String} (h : assemble source = .ok p) :
    ∃ xs, p.MadeOf xs := by
  cases hlex : lex source with
  | error e =>
    rw [assemble, hlex] at h
    contradiction
  | ok lexemes =>
    obtain ⟨r, calls, -, hfollows, hfinish⟩ :=
      exists_follows_of_assembleLexemes ((assemble_eq_ok_iff hlex).1 h)
    refine Assembly.exists_madeOf (referTo_notMem_stepsFrom [] calls) ?_
    rwa [Assembly.afterAll_of_performAll hfollows.performed]

end StackMachine.Listing
