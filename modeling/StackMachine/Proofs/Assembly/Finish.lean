import StackMachine.Proofs.Assembly.Layout
import StackMachine.Proofs.Instruction.Layout

/-!
# Finished code

Finishing writes the address of every label at the sites of that label and changes nothing else: the
finished code is the bytes of the emissions with each label spelled as its address
(`LaidOut.finish`). When no address was emitted apart from an instruction, the finished code is read
back as one instruction for each emission (`LaidOut.instructions_finish`).
-/

namespace StackMachine.Assembly

open Emission (sitesFrom lengthAll)

/-! ## Writing over code -/

/-- Writing over as many bytes as are written. -/
theorem toList_writeAt {code : Array UInt8} (pre old post : List UInt8) {new : List UInt8}
    (hcode : code.toList = pre ++ (old ++ post)) (hlen : old.length = new.length) :
    (writeAt code pre.length new).toList = pre ++ (new ++ post) := by
  induction new generalizing code pre old with
  | nil =>
    obtain rfl := List.length_eq_zero_iff.1 hlen
    exact hcode
  | cons b new ih =>
    cases old with
    | nil => contradiction
    | cons x old =>
      have hset : (code.setIfInBounds pre.length b).toList =
          (pre ++ [b]) ++ (old ++ post) := by
        rw [Array.toList_setIfInBounds, hcode, List.set_append_right _ _ (Nat.le_refl _)]
        simp
      have hrest := ih (pre ++ [b]) old hset (Nat.succ.inj hlen)
      rw [writeAt]
      simpa using hrest

/-- Labels spelled as given, but for one that is spelled as an address. -/
def spellAt (spell : Label → List UInt8) (l : Label) (address : Nat) : Label → List UInt8 :=
  fun m => if m = l then Bytes.littleEndian 8 address else spell m

theorem length_spellAt {spell : Label → List UInt8} (hspell : ∀ l, (spell l).length = 8)
    (l : Label) (address : Nat) (m : Label) : (spellAt spell l address m).length = 8 := by
  unfold spellAt
  split
  · exact Bytes.length_littleEndian 8 address
  · exact hspell m

/-- One emission, with its label spelled as the address when it is the one that is patched. -/
private theorem writeAt_emission {spell : Label → List UInt8}
    (hspell : ∀ l, (spell l).length = 8) {e : Emission} {l : Label} (hl : e.label? = some l)
    (address : Nat) {code : Array UInt8} {pre post : List UInt8}
    (hcode : code.toList = pre ++ (e.bytes spell ++ post)) :
    (writeAt code (pre.length + e.siteIn) (Bytes.littleEndian 8 address)).toList =
      pre ++ (e.bytes (spellAt spell l address) ++ post) := by
  have hwidth : (spell l).length = (Bytes.littleEndian 8 address).length := by
    rw [hspell, Bytes.length_littleEndian]
  cases e with
  | operation op arg => contradiction
  | jump op m =>
    obtain rfl : m = l := Option.some.inj hl
    have hwrite := toList_writeAt (pre ++ [op.code]) (spell m) post
      (by simpa [Emission.bytes] using hcode) hwidth
    simpa [Emission.bytes, Emission.siteIn, spellAt] using hwrite
  | reference m =>
    obtain rfl : m = l := Option.some.inj hl
    simpa [Emission.bytes, Emission.siteIn, spellAt] using
      toList_writeAt pre (spell m) post hcode hwidth

private theorem bytes_spellAt_of_ne {spell : Label → List UInt8} {e : Emission} {l : Label}
    (hl : e.label? ≠ some l) (address : Nat) :
    e.bytes (spellAt spell l address) = e.bytes spell := by
  cases e with
  | operation op arg => rfl
  | jump op m | reference m =>
    have hne : m ≠ l := fun h => hl (congrArg some h)
    simp [Emission.bytes, spellAt, hne]

theorem patch_concat (code : Array UInt8) (sites : List Nat) (site address : Nat) :
    patch code (sites ++ [site]) address =
      writeAt (patch code sites address) site (Bytes.littleEndian 8 address) := by
  simp only [patch, List.foldl_append, List.foldl_cons, List.foldl_nil]

/-- **Patching one label** spells it as its address everywhere, and no other label. -/
theorem toList_patch {spell : Label → List UInt8} (hspell : ∀ l, (spell l).length = 8)
    (l : Label) (address : Nat) {code : Array UInt8} {es : List Emission} (pre : List UInt8)
    (hcode : code.toList = pre ++ es.flatMap (Emission.bytes spell)) :
    (patch code (sitesFrom l pre.length es).reverse address).toList =
      pre ++ es.flatMap (Emission.bytes (spellAt spell l address)) := by
  induction es generalizing pre with
  | nil => simpa [patch, sitesFrom] using hcode
  | cons e es ih =>
    -- The sites of the later emissions are newer, so they are patched first.
    have hlater := ih (pre ++ e.bytes spell) (by simpa using hcode)
    rw [List.length_append, Emission.length_bytes hspell, List.append_assoc] at hlater
    rw [sitesFrom, List.flatMap_cons]
    split
    · next hl =>
      rw [List.reverse_cons, patch_concat]
      exact writeAt_emission hspell hl address hlater
    · next hl =>
      rw [bytes_spellAt_of_ne hl]
      exact hlater

/-- Patching label after label, from an index on: every label is spelled as its address, and those
before keep their spelling. -/
theorem toList_patchAll {slots : List LabelSlot} {k : Nat} {code finished : Array UInt8}
    {es : List Emission} {spell : Label → List UInt8} (hspell : ∀ l, (spell l).length = 8)
    (hsites : ∀ j slot, slots[j]? = some slot → slot.sites = (sitesFrom ⟨k + j⟩ 0 es).reverse)
    (hcode : code.toList = es.flatMap (Emission.bytes spell))
    (h : patchAll code k slots = .ok finished) :
    ∃ spell' : Label → List UInt8, finished.toList = es.flatMap (Emission.bytes spell') ∧
      (∀ l : Label, l.index < k → spell' l = spell l) ∧
      ∀ j slot, slots[j]? = some slot →
        ∃ x, slot.address = some x ∧ spell' ⟨k + j⟩ = Bytes.littleEndian 8 x := by
  induction slots generalizing k code spell with
  | nil =>
    obtain rfl := Except.ok.inj h
    exact ⟨spell, hcode, fun _ _ => rfl, by simp⟩
  | cons slot slots ih =>
    rw [patchAll] at h
    cases haddress : slot.address with
    | none => rw [haddress] at h; contradiction
    | some x =>
      rw [haddress] at h
      -- This label is spelled first, and no later label changes that.
      have hpatched : (patch code slot.sites x).toList =
          es.flatMap (Emission.bytes (spellAt spell ⟨k⟩ x)) := by
        rw [hsites 0 slot rfl]
        exact toList_patch hspell ⟨k⟩ x [] hcode
      have hlater : ∀ j s, slots[j]? = some s →
          s.sites = (sitesFrom ⟨k + 1 + j⟩ 0 es).reverse := by
        intro j s hs
        rw [Nat.add_assoc, Nat.add_comm 1 j]
        exact hsites (j + 1) s hs
      obtain ⟨spell', hcode', hbefore, hat⟩ :=
        ih (length_spellAt hspell ⟨k⟩ x) hlater hpatched h
      refine ⟨spell', hcode', ?_, ?_⟩
      · intro l hl
        have hne : l ≠ ⟨k⟩ := by
          rintro rfl
          exact Nat.lt_irrefl k hl
        rw [hbefore l (Nat.lt_succ_of_lt hl), spellAt, if_neg hne]
      · intro j s hs
        cases j with
        | zero =>
          obtain rfl := Option.some.inj hs
          refine ⟨x, haddress, ?_⟩
          rw [Nat.add_zero, hbefore ⟨k⟩ (Nat.lt_succ_self k), spellAt, if_pos rfl]
        | succ j =>
          have hj := hat j s hs
          rwa [Nat.add_assoc, Nat.add_comm 1 j] at hj

/-! ## The finished program -/

/-- The address of a label, once it was placed. -/
def addressOf (a : Assembly) (l : Label) : Nat :=
  ((a.labels[l.index]?).bind LabelSlot.address).getD 0

private theorem bytes_congr {s t : Label → List UInt8} {e : Emission}
    (h : ∀ l, e.label? = some l → s l = t l) : e.bytes s = e.bytes t := by
  cases e with
  | operation op arg => rfl
  | jump op l | reference l => simp [Emission.bytes, h l rfl]

/-- **The finished code** is what was emitted, with every label spelled as its address; all labels
have one. -/
theorem LaidOut.finish {a : Assembly} {es : List Emission} {p : Program} (h : a.LaidOut es)
    (hp : a.finish = .ok p) :
    (∀ slot ∈ a.labels, slot.address.isSome) ∧
      p.code.toList =
        es.flatMap (Emission.bytes fun l => Bytes.littleEndian 8 (a.addressOf l)) := by
  unfold Assembly.finish at hp
  cases hpatch : patchAll a.code 0 a.labels.toList with
  | error e => rw [hpatch] at hp; contradiction
  | ok finished =>
    rw [hpatch] at hp
    obtain rfl := Except.ok.inj hp
    have hsites : ∀ j slot, a.labels.toList[j]? = some slot →
        slot.sites = (sitesFrom ⟨0 + j⟩ 0 es).reverse := by
      intro j slot hslot
      rw [Array.getElem?_toList] at hslot
      rw [Nat.zero_add]
      exact h.sites ⟨j⟩ slot hslot
    obtain ⟨spell, hcode, -, hat⟩ :=
      toList_patchAll (fun _ => length_placeholder) hsites h.code hpatch
    constructor
    · intro slot hslot
      obtain ⟨j, hj⟩ := List.mem_iff_getElem?.1 (Array.mem_toList_iff.2 hslot)
      obtain ⟨x, hx, -⟩ := hat j slot hj
      simp [hx]
    · rw [hcode]
      -- Only labels that were emitted matter, and those are known.
      refine List.flatMap_congr fun e he => bytes_congr fun l hl => ?_
      obtain ⟨slot, hknown⟩ : ∃ slot, a.labels[l.index]? = some slot :=
        ⟨_, Array.getElem?_eq_getElem (h.known e he l hl)⟩
      obtain ⟨x, hx, hspelled⟩ := hat l.index _ (by rw [Array.getElem?_toList]; exact hknown)
      rw [Nat.zero_add] at hspelled
      simp [hspelled, addressOf, hknown, hx]

/-- Addresses can be written when all labels have one. -/
private theorem exists_patchAll_iff {code : Array UInt8} {index : Nat} {slots : List LabelSlot} :
    (∃ finished, patchAll code index slots = .ok finished) ↔
      ∀ slot ∈ slots, slot.address.isSome := by
  induction slots generalizing code index with
  | nil => exact ⟨by simp, fun _ => ⟨code, rfl⟩⟩
  | cons slot slots ih =>
    rw [patchAll, List.forall_mem_cons]
    cases haddress : slot.address with
    | none => simp
    | some address =>
      dsimp only
      rw [ih]
      simp

/-- **An assembly can be finished** exactly when all its labels were placed. -/
theorem exists_finish_iff {a : Assembly} :
    (∃ p, a.finish = .ok p) ↔ ∀ slot ∈ a.labels, slot.address.isSome := by
  simp only [← Array.mem_toList_iff]
  rw [← exists_patchAll_iff]
  constructor
  · rintro ⟨p, hp⟩
    obtain ⟨code, hcode, -⟩ := exists_of_bind_ok hp
    exact ⟨code, hcode⟩
  · rintro ⟨code, hcode⟩
    refine ⟨{ code, strings := a.strings }, ?_⟩
    rw [finish, hcode]
    rfl

end StackMachine.Assembly

namespace StackMachine

/-! ## Reading finished code -/

/-- Whether an emission is a whole instruction. -/
def Emission.Whole (e : Emission) : Prop := ∀ l, e ≠ reference l

/-- The operation that an emission is, when labels have the given addresses. -/
def Emission.operation? (address : Label → Nat) : Emission → Option (Opcode × Argument)
  | operation op arg => some (op, arg)
  | jump op l => some (op, .u64 (UInt64.ofNat (address l)))
  | reference _ => none

namespace Emission

variable {address : Label → Nat} {es : List Emission}

/-- Whole emissions are operations, with the same bytes. -/
theorem exists_operation {e : Emission} (hwhole : e.Whole) (hshape : e.WellShaped)
    (address : Label → Nat) :
    ∃ x, e.operation? address = some x ∧ x.2.shape = x.1.shape ∧ x.1.size = e.length ∧
      operationBytes x = e.bytes fun l => Bytes.littleEndian 8 (address l) := by
  cases e with
  | operation op arg =>
    refine ⟨(op, arg), rfl, hshape, ?_, rfl⟩
    rw [Opcode.size, length, hshape]
  | jump op l =>
    have hop : op.shape = .u64 := hshape
    refine ⟨_, rfl, hop.symm, ?_, ?_⟩
    · rw [Opcode.size, hop]
      rfl
    · rw [operationBytes, bytes, Argument.bytes, UInt64.toNat_ofNat']
      exact congrArg _ (Bytes.littleEndian_mod 8 (address l))
  | reference l => exact absurd rfl (hwhole l)

/-- The operations of whole emissions: their shapes, their length and their bytes. -/
theorem operations_spec (hwhole : ∀ e ∈ es, e.Whole) (hshape : ∀ e ∈ es, e.WellShaped)
    (address : Label → Nat) :
    (∀ x ∈ es.filterMap (operation? address), x.2.shape = x.1.shape) ∧
      ((es.filterMap (operation? address)).map fun x => x.1.size).sum = lengthAll es ∧
      (es.filterMap (operation? address)).flatMap operationBytes =
        es.flatMap (bytes fun l => Bytes.littleEndian 8 (address l)) := by
  induction es with
  | nil => simp [lengthAll]
  | cons e es ih =>
    obtain ⟨hshapes, hlength, hbytes⟩ :=
      ih (fun x hx => hwhole x (by simp [hx])) (fun x hx => hshape x (by simp [hx]))
    obtain ⟨x, hx, hxshape, hxlength, hxbytes⟩ :=
      exists_operation (hwhole e (by simp)) (hshape e (by simp)) address
    rw [List.filterMap_cons_some hx]
    refine ⟨?_, ?_, ?_⟩
    · intro y hy
      rcases List.mem_cons.1 hy with rfl | hy
      · exact hxshape
      · exact hshapes y hy
    · rw [List.map_cons, List.sum_cons, hlength, hxlength]
      simp [lengthAll]
    · rw [List.flatMap_cons, List.flatMap_cons, hbytes, hxbytes]

end Emission

/-- **Finished code is read back** as one instruction for each emission, without an error, when
every emission is a whole instruction. -/
theorem Assembly.LaidOut.instructions_finish {a : Assembly} {es : List Emission} {p : Program}
    (h : a.LaidOut es) (hwhole : ∀ e ∈ es, e.Whole) (hp : a.finish = .ok p) :
    instructions p.code = (placed 0 (es.filterMap (Emission.operation? a.addressOf))).map .ok := by
  obtain ⟨-, hcode⟩ := h.finish hp
  obtain ⟨hshapes, -, hbytes⟩ := Emission.operations_spec hwhole h.shaped a.addressOf
  exact instructionsFrom_of_toList [] hshapes (by rw [hcode, hbytes]; rfl)

/-- Only a step that reserves an address emits anything but a whole instruction. -/
theorem Assembly.whole_of_noReference {steps : List AssemblyStep}
    (hraw : ∀ l, .referTo l ∉ steps) : ∀ e ∈ emittedAll {} steps, e.Whole := by
  rintro e he l rfl
  obtain ⟨before, step, rest, reply, b, rfl, -, hemission⟩ := exists_of_mem_emittedAll he
  cases step with
  | referTo label => exact hraw label (by simp)
  | _ => simp [AssemblyStep.emission?] at hemission

end StackMachine
