import StackMachine.Proofs.Assembler.Refinement
import StackMachine.Proofs.Assembly.ReadBack
import StackMachine.Proofs.Assembly.Sealed
import StackMachine.Proofs.Assembly.Sites

/-!
# Addresses in finished code

What finishing does to the bytes of the code, after any steps, those included that reserve an
address apart from an instruction (`labels_patched_exactly`). It fails because of a label that was
created and never placed, and names the first one. Else it writes at every reserved site where the
label of the site was last placed, and leaves all other bytes and the pool as they are. An assembler
that is changed in place has the same labels and is finished in the same way.
-/

namespace StackMachine

/-! ## Labels that are created and placed -/

/-- The name that a step gives to a label that it creates. -/
def AssemblyStep.created? : AssemblyStep → Option (Option String)
  | .newLabel name => some name
  | _ => none

/-- The names of the labels that steps create, by the places of the labels. -/
def createdNames (steps : List AssemblyStep) : List (Option String) :=
  steps.filterMap AssemblyStep.created?

/-- A label is placed by one of the steps, after it was created. -/
def PlacedIn (steps : List AssemblyStep) (l : Label) : Prop :=
  ∃ before rest, steps = before ++ .placeLabel l :: rest ∧ l.index < (createdNames before).length

theorem placedIn_concat_iff {steps : List AssemblyStep} {step : AssemblyStep} {l : Label} :
    PlacedIn (steps ++ [step]) l ↔
      PlacedIn steps l ∨ step = .placeLabel l ∧ l.index < (createdNames steps).length := by
  constructor
  · rintro ⟨before, rest, heq, hcreated⟩
    rcases rest.eq_nil_or_concat with rfl | ⟨rest, last, rfl⟩
    · obtain ⟨rfl, hstep⟩ := List.append_inj' heq rfl
      exact .inr ⟨List.singleton_inj.1 hstep, hcreated⟩
    · rw [List.concat_eq_append, ← List.cons_append, ← List.append_assoc] at heq
      obtain ⟨rfl, -⟩ := List.append_inj' heq rfl
      exact .inl ⟨before, rest, rfl, hcreated⟩
  · rintro (⟨before, rest, rfl, hcreated⟩ | ⟨rfl, hcreated⟩)
    · exact ⟨before, rest ++ [step], by simp, hcreated⟩
    · exact ⟨steps, [], rfl, hcreated⟩

namespace Assembly

open Emission (references lengthAll)

variable {a b : Assembly} {es : List Emission} {steps : List AssemblyStep} {l : Label}
  {p : Program}

/-- The names of the labels of an assembly. -/
def names (a : Assembly) : List (Option String) := a.labels.toList.map LabelSlot.name

/-- What is noted of a label does not change its name. -/
theorem map_name_modify (labels : Array LabelSlot) (i : Nat) {f : LabelSlot → LabelSlot}
    (hf : ∀ slot, (f slot).name = slot.name) :
    (labels.modify i f).toList.map LabelSlot.name = labels.toList.map LabelSlot.name := by
  refine List.ext_getElem? fun j => ?_
  rw [List.getElem?_map, List.getElem?_map, Array.getElem?_toList, Array.getElem?_toList,
    Array.getElem?_modify]
  split
  · cases labels[j]? <;> simp [hf]
  · rfl

theorem names_placeLabel {label : Label} (h : a.placeLabel label = .ok b) :
    b.names = a.names := by
  obtain rfl := placeLabel_ok h
  refine map_name_modify a.labels label.index ?_
  intro slot
  rfl

theorem names_referTo {label : Label} (h : a.referTo label = .ok b) : b.names = a.names := by
  obtain ⟨-, rfl⟩ := referTo_ok h
  refine map_name_modify a.labels label.index ?_
  intro slot
  rfl

/-- **Only creating a label adds a name.** -/
theorem names_perform {step : AssemblyStep} {reply : AssemblyReply}
    (h : a.perform step = .ok (reply, b)) : b.names = a.names ++ step.created?.toList := by
  cases step with
  | newLabel name =>
    cases h
    simp [names, newLabel, AssemblyStep.created?]
  | placeLabel label =>
    obtain ⟨c, hplace, ⟨⟩⟩ := exists_of_map_ok h
    exact (names_placeLabel hplace).trans (List.append_nil _).symm
  | referTo label =>
    obtain ⟨c, hrefer, ⟨⟩⟩ := exists_of_map_ok h
    exact (names_referTo hrefer).trans (List.append_nil _).symm
  | emitJump op label =>
    obtain ⟨c, hjump, ⟨⟩⟩ := exists_of_map_ok h
    exact (names_referTo (emitJump_ok hjump).2).trans (List.append_nil _).symm
  | emit op =>
    obtain ⟨c, hemit, ⟨⟩⟩ := exists_of_map_ok h
    obtain ⟨-, rfl⟩ := emit_ok hemit
    exact (List.append_nil _).symm
  | emitWith op imm =>
    obtain ⟨c, hemit, ⟨⟩⟩ := exists_of_map_ok h
    obtain ⟨-, -, rfl⟩ := emitWith_ok hemit
    exact (List.append_nil _).symm
  | enterScope =>
    obtain ⟨c, henter, ⟨⟩⟩ := exists_of_map_ok (x := a.enterScope) h
    obtain rfl := enterScope_ok henter
    exact (List.append_nil _).symm
  | exitScope =>
    obtain ⟨c, hexit, ⟨⟩⟩ := exists_of_map_ok h
    obtain ⟨scopes, -, rfl⟩ := exitScope_ok hexit
    exact (List.append_nil _).symm
  | declare name isMutable =>
    obtain ⟨⟨index, c⟩, hdeclare, ⟨⟩⟩ := exists_of_map_ok h
    obtain ⟨-, -, rfl⟩ := declare_ok hdeclare
    exact (List.append_nil _).symm
  | resolve name =>
    obtain ⟨binding, -, ⟨⟩⟩ := exists_of_map_ok h
    exact (List.append_nil _).symm

theorem names_after (a : Assembly) (step : AssemblyStep) :
    (a.after step).names = a.names ++ step.created?.toList := by
  rw [after]
  cases hstep : a.perform step with
  | ok r => exact names_perform hstep
  | error e =>
    -- Creating a label does not fail.
    cases step with
    | newLabel name => contradiction
    | _ => exact (List.append_nil _).symm

theorem afterAll_concat (a : Assembly) (steps : List AssemblyStep) (step : AssemblyStep) :
    a.afterAll (steps ++ [step]) = (a.afterAll steps).after step := by
  rw [afterAll, List.foldl_append]
  rfl

/-- **The labels of an assembly** are those that its steps created. -/
theorem names_afterAll (steps : List AssemblyStep) :
    (afterAll {} steps).names = createdNames steps := by
  induction steps using List.reverseRecOn with
  | nil => rfl
  | append_singleton steps step ih =>
    rw [afterAll_concat, names_after, ih, createdNames, createdNames, List.filterMap_append]
    cases hcreated : step.created? <;> simp [hcreated]

theorem knows_afterAll_iff :
    (afterAll {} steps).knows l ↔ l.index < (createdNames steps).length := by
  rw [← names_afterAll, names, List.length_map, Array.length_toList, knows, decide_eq_true_eq]

/-- **A label has an address** exactly when it was placed after it was created. -/
theorem isSome_address?_iff : ((afterAll {} steps).address? l).isSome ↔ PlacedIn steps l := by
  induction steps using List.reverseRecOn with
  | nil =>
    constructor
    · intro h
      contradiction
    · rintro ⟨before, rest, heq, -⟩
      simp at heq
  | append_singleton steps step ih =>
    rw [afterAll_concat, placedIn_concat_iff, after, ← ih, ← knows_afterAll_iff]
    cases hstep : (afterAll {} steps).perform step with
    | error e =>
      have hfails : ¬(step = .placeLabel l ∧ (afterAll {} steps).knows l) := by
        rintro ⟨rfl, hknown⟩
        rw [perform, placeLabel, if_pos hknown] at hstep
        contradiction
      simp [hfails]
    | ok r =>
      dsimp only
      rw [address?_perform hstep l]
      split
      · next hplaced =>
        subst hplaced
        obtain ⟨c, hplace, -⟩ := exists_of_map_ok hstep
        have hknown : (afterAll {} steps).knows l := by
          by_contra hunknown
          rw [placeLabel, if_neg hunknown] at hplace
          contradiction
        simp [hknown]
      · next hother => simp [hother]

/-! ## Failing to finish -/

/-- Addresses cannot be written because of the first label that has none. -/
theorem patchAll_eq_error_iff {code : Array UInt8} {index : Nat} {slots : List LabelSlot}
    {error : AssemblyError} :
    patchAll code index slots = .error error ↔
      ∃ i slot, slots[i]? = some slot ∧ slot.address = none ∧
        (∀ j < i, ∀ s, slots[j]? = some s → s.address.isSome) ∧
        error = .unresolvedLabel ⟨index + i⟩ slot.name := by
  induction slots generalizing code index with
  | nil => simp [patchAll]
  | cons slot slots ih =>
    rw [patchAll]
    cases haddress : slot.address with
    | none =>
      constructor
      · rintro ⟨⟩
        refine ⟨0, slot, rfl, haddress, ?_, rfl⟩
        intro j hj
        contradiction
      · rintro ⟨i, s, hs, -, hbefore, rfl⟩
        cases i with
        | zero =>
          obtain rfl := Option.some.inj hs
          rfl
        | succ i =>
          have hfirst := hbefore 0 (Nat.succ_pos i) slot rfl
          rw [haddress] at hfirst
          contradiction
    | some x =>
      dsimp only
      rw [ih]
      constructor
      · rintro ⟨i, s, hs, hnone, hbefore, rfl⟩
        refine ⟨i + 1, s, hs, hnone, ?_, by rw [Nat.add_right_comm, Nat.add_assoc]⟩
        intro j hj t ht
        cases j with
        | zero =>
          obtain rfl := Option.some.inj ht
          simp [haddress]
        | succ j => exact hbefore j (Nat.lt_of_succ_lt_succ hj) t ht
      · rintro ⟨i, s, hs, hnone, hbefore, rfl⟩
        cases i with
        | zero =>
          obtain rfl := Option.some.inj hs
          rw [haddress] at hnone
          contradiction
        | succ i =>
          refine ⟨i, s, hs, hnone, ?_, by rw [Nat.add_right_comm, Nat.add_assoc]⟩
          intro j hj t ht
          exact hbefore (j + 1) (Nat.succ_lt_succ hj) t ht

theorem finish_eq_error_iff {error : AssemblyError} :
    a.finish = .error error ↔ patchAll a.code 0 a.labels.toList = .error error := by
  rw [finish]
  cases patchAll a.code 0 a.labels.toList with
  | error e => simp [bind, Except.bind]
  | ok code => simp [bind, Except.bind, pure, Except.pure]

/-- A label is known by its slot. -/
theorem getElem?_names {slot : LabelSlot} (hslot : a.labels[l.index]? = some slot) :
    a.names[l.index]? = some slot.name ∧ a.address? l = slot.address := by
  constructor
  · rw [names, List.getElem?_map, Array.getElem?_toList, hslot]
    rfl
  · rw [address?, hslot]
    rfl

/-- **Finishing fails** because of the first label that was created and never placed. -/
theorem finish_afterAll_eq_error_iff {error : AssemblyError} :
    (afterAll {} steps).finish = .error error ↔
      ∃ l name, (createdNames steps)[l.index]? = some name ∧ ¬PlacedIn steps l ∧
        (∀ m, m.index < l.index → PlacedIn steps m) ∧ error = .unresolvedLabel l name := by
  rw [finish_eq_error_iff, patchAll_eq_error_iff, ← names_afterAll]
  simp only [← isSome_address?_iff, Array.getElem?_toList, Nat.zero_add]
  constructor
  · rintro ⟨i, slot, hslot, hnone, hbefore, rfl⟩
    obtain ⟨hname, haddress⟩ := getElem?_names (l := ⟨i⟩) hslot
    refine ⟨⟨i⟩, slot.name, hname, by simp [haddress, hnone], ?_, rfl⟩
    intro m hm
    have hlt := (Array.getElem?_eq_some_iff.1 hslot).1
    have hm' := Array.getElem?_eq_getElem (Nat.lt_trans hm hlt)
    rw [(getElem?_names hm').2]
    exact hbefore m.index hm _ hm'
  · rintro ⟨l, name, hname, hunplaced, hbefore, rfl⟩
    rw [names, List.getElem?_map, Array.getElem?_toList] at hname
    obtain ⟨slot, hslot, rfl⟩ := Option.map_eq_some_iff.1 hname
    obtain ⟨-, haddress⟩ := getElem?_names hslot
    refine ⟨l.index, slot, hslot, by simpa [haddress] using hunplaced, ?_, rfl⟩
    intro j hj s hs
    rw [← (getElem?_names (l := ⟨j⟩) hs).2]
    exact hbefore ⟨j⟩ hj

/-- **Finishing succeeds** when all labels that were created were placed. -/
theorem exists_finish_afterAll_iff :
    (∃ p, (afterAll {} steps).finish = .ok p) ↔
      ∀ l : Label, l.index < (createdNames steps).length → PlacedIn steps l := by
  rw [exists_finish_iff]
  simp only [← isSome_address?_iff, ← knows_afterAll_iff, knows, decide_eq_true_eq]
  constructor
  · intro hall l hl
    rw [address?, Array.getElem?_eq_getElem hl]
    exact hall _ (Array.getElem_mem hl)
  · intro hall slot hslot
    obtain ⟨i, hi⟩ := Array.mem_iff_getElem?.1 hslot
    have haddress := hall ⟨i⟩ (Array.getElem?_eq_some_iff.1 hi).1
    rwa [(getElem?_names (l := ⟨i⟩) hi).2] at haddress

/-! ## Finished code -/

/-- The program that steps were finished to, byte by byte. -/
structure Patched (steps : List AssemblyStep) (p : Program) : Prop where
  size : p.code.size = (afterAll {} steps).position
  /-- At a site that was reserved for a label stands where the label was last placed. -/
  sites : ∀ r ∈ reserved {} steps, ∃ x ≤ (afterAll {} steps).position,
    PlacedLast steps r.2 x ∧ (p.code.extract r.1 (r.1 + 8)).toList = Bytes.littleEndian 8 x
  /-- No site is left as it was reserved: only an address of 2⁶⁴ − 1 or more could be spelled like a
  placeholder, and no code in memory is that long. -/
  written : (afterAll {} steps).position < 2 ^ 64 - 1 →
    ∀ r ∈ reserved {} steps, (p.code.extract r.1 (r.1 + 8)).toList ≠ placeholder
  /-- A byte outside all sites is that of an emission. -/
  others : ∀ i, (∀ r ∈ reserved {} steps, i < r.1 ∨ r.1 + 8 ≤ i) →
    p.code[i]? = ((emittedAll {} steps).flatMap (Emission.bytes fun _ => placeholder))[i]?
  strings : p.strings = (afterAll {} steps).strings
  /-- The addresses can be written in any order. -/
  anyOrder : ∀ order, order.Perm (reserved {} steps) →
    p.code = writeAll (afterAll {} steps).addressOf (afterAll {} steps).code order

/-- The sites that were reserved are those of all emissions. -/
theorem reserved_afterAll (steps : List AssemblyStep) :
    reserved {} steps = references 0 (emittedAll {} steps) := laidOut_empty.reserved_eq steps

/-- The finished code is the code with all addresses written. -/
theorem LaidOut.code_finish (h : a.LaidOut es) (hp : a.finish = .ok p) :
    p.code = writeAll a.addressOf a.code (references 0 es) := by
  have hwritten := Emission.toList_writeAll (fun _ => length_placeholder) a.addressOf [] h.code
  exact Array.ext' ((h.finish hp).2.trans hwritten.symm)

/-- The address of a label in a finished assembly is where the label was last placed. -/
theorem placedLast_addressOf (hp : (afterAll {} steps).finish = .ok p)
    (hknown : l.index < (afterAll {} steps).labels.size) :
    PlacedLast steps l ((afterAll {} steps).addressOf l) ∧
      (afterAll {} steps).addressOf l ≤ (afterAll {} steps).position := by
  have h := laidOut_afterAll steps
  have hslot := Array.getElem_mem hknown
  obtain ⟨x, hx⟩ := Option.isSome_iff_exists.1 ((h.finish hp).1 _ hslot)
  have haddress : (afterAll {} steps).address? l = some x := by
    rw [address?, Array.getElem?_eq_getElem hknown]
    exact hx
  rw [addressOf_of_address? haddress]
  refine ⟨placedLast_of_address? haddress, ?_⟩
  obtain ⟨before, ⟨rest, heq⟩, rfl⟩ := h.addresses _ hslot x hx
  rw [h.position, ← heq]
  simp [lengthAll]

/-- Eight bytes that spell an address which is not the largest word differ from the placeholder. -/
theorem littleEndian_ne_placeholder {x : Nat} (hx : x < 2 ^ 64 - 1) :
    Bytes.littleEndian 8 x ≠ placeholder := by
  intro heq
  have hvalue := congrArg Bytes.ofLittleEndian heq
  rw [Bytes.ofLittleEndian_of_lt (by omega)] at hvalue
  have hplaceholder : Bytes.ofLittleEndian placeholder = 2 ^ 64 - 1 := by decide
  omega

/-- **A program that was finished is patched.** -/
theorem patched_of_finish (hp : (afterAll {} steps).finish = .ok p) : Patched steps p := by
  have h := laidOut_afterAll steps
  have hcode := h.code_finish hp
  have hsites : ∀ r ∈ reserved {} steps, ∃ x ≤ (afterAll {} steps).position,
      PlacedLast steps r.2 x ∧
        (p.code.extract r.1 (r.1 + 8)).toList = Bytes.littleEndian 8 x := by
    intro r hr
    rw [reserved_afterAll] at hr
    obtain ⟨e, he, hl⟩ := Emission.exists_label_of_mem_references hr
    obtain ⟨hlast, hle⟩ := placedLast_addressOf hp (h.known e he r.2 hl)
    refine ⟨_, hle, hlast, ?_⟩
    have hlength (l : Label) :
        (Bytes.littleEndian 8 ((afterAll {} steps).addressOf l)).length = 8 :=
      Bytes.length_littleEndian 8 _
    obtain ⟨pre, post, hsplit, hplace⟩ := Emission.exists_split_of_mem_references hlength hr
    rw [Array.toList_extract, (h.finish hp).2, hsplit, List.extract_eq_take_drop, ← hplace,
      Nat.zero_add, List.drop_left, Nat.add_sub_cancel_left]
    exact List.take_left' (hlength r.2)
  refine ⟨by rw [h.size_finish hp, h.position], hsites, ?_, ?_, strings_finish hp, ?_⟩
  · intro hsize r hr
    obtain ⟨x, hx, -, hbytes⟩ := hsites r hr
    rw [hbytes]
    exact littleEndian_ne_placeholder (Nat.lt_of_le_of_lt hx hsize)
  · intro i hi
    rw [reserved_afterAll] at hi
    rw [hcode, getElem?_writeAll_of_outside hi, ← Array.getElem?_toList, h.code]
  · intro order horder
    rw [reserved_afterAll] at horder
    rw [hcode, writeAll_perm (Emission.pairwise_references 0 _) horder]

/-- **Addresses are patched exactly**, after every sequence of steps. All sites of labels are within
the code, and no two reserved sites overlap. Finishing fails if and only if a label was created and
never placed, and names the first such label; else every reserved site has the address of its label
in the end, and everything else is as it was emitted. Of an assembler that is changed in place all
this holds too, as long as its pool has room: it has the same labels and as much code, and is
finished in the same way. -/
theorem labels_patched_exactly (steps : List AssemblyStep) :
    (∀ slot ∈ (afterAll {} steps).labels, ∀ site ∈ slot.sites,
        site + 8 ≤ (afterAll {} steps).position) ∧
      (reserved {} steps).Pairwise Reference.Before ∧
      ((∃ p, (afterAll {} steps).finish = .ok p) ↔
        ∀ l : Label, l.index < (createdNames steps).length → PlacedIn steps l) ∧
      (∀ error, (afterAll {} steps).finish = .error error ↔
        ∃ l name, (createdNames steps)[l.index]? = some name ∧ ¬PlacedIn steps l ∧
          (∀ m, m.index < l.index → PlacedIn steps m) ∧ error = .unresolvedLabel l name) ∧
      (∀ p, (afterAll {} steps).finish = .ok p → Patched steps p) ∧
      ((Assembler.afterAll {} steps).strings.size < UInt32.size →
        (Assembler.afterAll {} steps).labels = (afterAll {} steps).labels ∧
        (Assembler.afterAll {} steps).position = (afterAll {} steps).position ∧
        (Assembler.afterAll {} steps).finish = (afterAll {} steps).finish) := by
  have h := laidOut_afterAll steps
  refine ⟨?_, ?_, exists_finish_afterAll_iff, fun error => finish_afterAll_eq_error_iff,
    fun p => patched_of_finish, fun hroom => ?_⟩
  · intro slot hslot site hsite
    obtain ⟨i, hi⟩ := Array.mem_iff_getElem?.1 hslot
    rw [h.sites ⟨i⟩ slot hi, List.mem_reverse, Emission.mem_sitesFrom_iff] at hsite
    have := (Emission.bounds_of_mem_references hsite).2
    rw [h.position]
    dsimp only at this
    omega
  · rw [reserved_afterAll]
    exact Emission.pairwise_references 0 _
  · have hshown : (Assembler.afterAll {} steps).assembly = afterAll {} steps :=
      Assembler.assembly_afterAll Assembler.ordered_empty hroom
    exact ⟨congrArg Assembly.labels hshown, congrArg Assembly.position hshown,
      Assembler.finish_afterAll hroom⟩

/-- An address apart from an instruction and one in a jump, to labels of which one is moved and both
are placed after they were referred to. Changed in place, the assembler gives the same program. -/
theorem moved_label_patched :
    let steps : List AssemblyStep := [
      .newLabel none, .newLabel (some "end"), .referTo ⟨0⟩, .placeLabel ⟨0⟩, .emitJump .jump ⟨1⟩,
      .placeLabel ⟨0⟩, .emit .pop, .placeLabel ⟨1⟩]
    let p : Program := {
      code := #[17, 0, 0, 0, 0, 0, 0, 0, 0x20, 18, 0, 0, 0, 0, 0, 0, 0, 0x10]
      strings := #[] }
    (afterAll {} steps).finish = .ok p ∧ (Assembler.afterAll {} steps).finish = .ok p ∧
      reserved {} steps = [(0, ⟨0⟩), (9, ⟨1⟩)] ∧ Patched steps p := by
  intro steps p
  have hp : (afterAll {} steps).finish = .ok p := by decide +kernel
  obtain ⟨-, -, -, -, hpatched, hplace⟩ := labels_patched_exactly steps
  have hfinish := (hplace (by decide +kernel)).2.2.trans hp
  exact ⟨hp, hfinish, by decide +kernel, hpatched p hp⟩

end Assembly
end StackMachine
