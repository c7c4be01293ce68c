import StackMachine.Proofs.Assembly.Finish

/-!
# Sites of addresses

The steps that refer to a label reserve eight bytes of the code for its address. No two of these
sites overlap, so addresses can be written in any order: the code is the same in the end
(`LaidOut.writeAll_perm`).
-/

namespace StackMachine

/-! ## Writing in the middle of code -/

namespace Assembly

@[simp] theorem size_writeAt (code : Array UInt8) (site : Nat) (bytes : List UInt8) :
    (writeAt code site bytes).size = code.size := by
  induction bytes generalizing code site with
  | nil => rfl
  | cons b bytes ih => rw [writeAt, ih, Array.size_setIfInBounds]

/-- Each byte after bytes were written at a site. -/
theorem getElem?_writeAt (code : Array UInt8) (site : Nat) (bytes : List UInt8) (i : Nat) :
    (writeAt code site bytes)[i]? =
      if site ≤ i ∧ i < site + bytes.length ∧ i < code.size then bytes[i - site]?
      else code[i]? := by
  induction bytes generalizing code site with
  | nil =>
    rw [if_neg (by simp; omega)]
    rfl
  | cons b bytes ih =>
    rw [writeAt, ih, Array.size_setIfInBounds, Array.getElem?_setIfInBounds, List.length_cons]
    by_cases hi : site = i
    · subst hi
      rw [if_neg (by omega), if_pos rfl, Nat.sub_self, List.getElem?_cons_zero]
      by_cases hsize : site < code.size
      · rw [if_pos hsize, if_pos (by omega)]
      · rw [if_neg hsize, if_neg (by omega), Array.getElem?_eq_none (by omega)]
    · rw [if_neg hi]
      by_cases hwithin : site + 1 ≤ i ∧ i < site + 1 + bytes.length ∧ i < code.size
      · have hindex : i - site = i - (site + 1) + 1 := by omega
        rw [if_pos hwithin, if_pos (by omega), hindex, List.getElem?_cons_succ]
      · rw [if_neg hwithin, if_neg (by omega)]

/-- Bytes that do not overlap can be written in either order. -/
theorem writeAt_comm {s t : Nat} {xs ys : List UInt8}
    (hapart : s + xs.length ≤ t ∨ t + ys.length ≤ s) (code : Array UInt8) :
    writeAt (writeAt code s xs) t ys = writeAt (writeAt code t ys) s xs := by
  refine Array.ext_getElem? fun i => ?_
  rw [getElem?_writeAt, getElem?_writeAt, getElem?_writeAt, getElem?_writeAt, size_writeAt,
    size_writeAt]
  by_cases hs : s ≤ i ∧ i < s + xs.length ∧ i < code.size
  · rw [if_pos hs, if_neg (by omega), if_pos hs]
  · rw [if_neg hs, if_neg hs]

/-- A site of the code, and the label whose address is to be written there. -/
abbrev Reference := Nat × Label

/-- The addresses of labels are written at sites, one after the other. -/
def writeAll (address : Label → Nat) (code : Array UInt8) (refs : List Reference) : Array UInt8 :=
  refs.foldl (fun code r => writeAt code r.1 (Bytes.littleEndian 8 (address r.2))) code

theorem writeAll_cons (address : Label → Nat) (code : Array UInt8) (r : Reference)
    (refs : List Reference) :
    writeAll address code (r :: refs) =
      writeAll address (writeAt code r.1 (Bytes.littleEndian 8 (address r.2))) refs := by
  simp only [writeAll, List.foldl_cons]

/-- The site of the first reference is before that of the second, and they do not overlap. -/
def Reference.Before (r s : Reference) : Prop := r.1 + 8 ≤ s.1

/-- **Addresses can be written in any order** at sites that do not overlap. -/
theorem writeAll_perm {refs order : List Reference} (hapart : refs.Pairwise Reference.Before)
    (horder : order.Perm refs) (address : Label → Nat) (code : Array UInt8) :
    writeAll address code order = writeAll address code refs := by
  refine horder.foldl_eq' ?_ code
  intro r hr s hs z
  have hlength (x : Nat) : (Bytes.littleEndian 8 x).length = 8 := Bytes.length_littleEndian 8 x
  have hsymm : Std.Symm fun r s : Reference => r.Before s ∨ s.Before r := ⟨fun _ _ => Or.symm⟩
  by_cases hrs : r = s
  · rw [hrs]
  · have hdisjoint : refs.Pairwise fun r s => r.Before s ∨ s.Before r := hapart.imp Or.inl
    have hsites := hdisjoint.forall (horder.mem_iff.1 hr) (horder.mem_iff.1 hs) hrs
    refine writeAt_comm ?_ z
    rw [hlength, hlength]
    exact hsites

/-- What is outside all sites stays as it was. -/
theorem getElem?_writeAll_of_outside {refs : List Reference} {i : Nat}
    (hi : ∀ r ∈ refs, i < r.1 ∨ r.1 + 8 ≤ i) (address : Label → Nat) (code : Array UInt8) :
    (writeAll address code refs)[i]? = code[i]? := by
  induction refs generalizing code with
  | nil => rfl
  | cons r refs ih =>
    rw [List.forall_mem_cons] at hi
    rw [writeAll_cons, ih hi.2, getElem?_writeAt, Bytes.length_littleEndian, if_neg (by omega)]

end Assembly

/-! ## Sites of emissions -/

namespace Emission

open Assembly (Reference writeAll writeAt)

/-- The sites for the addresses of labels in a sequence of emissions that begins at an offset. -/
def references (offset : Nat) : List Emission → List Reference
  | [] => []
  | e :: es =>
    (e.label?.map fun l => (offset + e.siteIn, l)).toList ++ references (offset + e.length) es

variable {spell : Label → List UInt8} {offset : Nat} {e : Emission} {es : List Emission}
  {r : Reference}

theorem references_append (offset : Nat) (es fs : List Emission) :
    references offset (es ++ fs) =
      references offset es ++ references (offset + lengthAll es) fs := by
  induction es generalizing offset with
  | nil => rfl
  | cons e es ih =>
    have hsum : offset + lengthAll (e :: es) = offset + e.length + lengthAll es := by
      simp [lengthAll, Nat.add_assoc]
    rw [List.cons_append, references, references, ih, hsum, List.append_assoc]

/-- A label has its address written at its own sites. -/
theorem mem_sitesFrom_iff {l : Label} {site : Nat} :
    site ∈ sitesFrom l offset es ↔ (site, l) ∈ references offset es := by
  induction es generalizing offset with
  | nil => simp [sitesFrom, references]
  | cons e es ih =>
    rw [sitesFrom, references, List.mem_append, ← ih]
    cases hl : e.label? with
    | none => simp
    | some m =>
      by_cases hm : m = l
      · subst hm
        simp
      · simp [hm, Ne.symm hm]

/-- A reference is that of an emission. -/
theorem exists_label_of_mem_references (hr : r ∈ references offset es) :
    ∃ e ∈ es, e.label? = some r.2 := by
  obtain ⟨site, l⟩ := r
  rw [← mem_sitesFrom_iff] at hr
  by_contra hnone
  push Not at hnone
  rw [sitesFrom_eq_nil hnone] at hr
  contradiction

theorem siteIn_add_eight_le {l : Label} (hl : e.label? = some l) : e.siteIn + 8 ≤ e.length := by
  cases e with
  | operation op arg => contradiction
  | jump op m => exact Nat.le_refl 9
  | reference m => exact Nat.le_refl 8

/-- **Sites are within the code.** -/
theorem bounds_of_mem_references (hr : r ∈ references offset es) :
    offset ≤ r.1 ∧ r.1 + 8 ≤ offset + lengthAll es := by
  induction es generalizing offset with
  | nil => contradiction
  | cons e es ih =>
    have hsum : lengthAll (e :: es) = e.length + lengthAll es := by simp [lengthAll]
    rw [references, List.mem_append, Option.mem_toList, Option.map_eq_some_iff] at hr
    rcases hr with ⟨l, hl, rfl⟩ | hr
    · have := siteIn_add_eight_le hl
      dsimp only
      omega
    · have := ih hr
      omega

/-- **Sites do not overlap**, and they are found in their order. -/
theorem pairwise_references (offset : Nat) (es : List Emission) :
    (references offset es).Pairwise Reference.Before := by
  induction es generalizing offset with
  | nil => exact .nil
  | cons e es ih =>
    rw [references, List.pairwise_append]
    refine ⟨?_, ih _, ?_⟩
    · cases e.label? <;> simp
    · intro r hr s hs
      rw [Option.mem_toList, Option.map_eq_some_iff] at hr
      obtain ⟨l, hl, rfl⟩ := hr
      have := siteIn_add_eight_le hl
      have := (bounds_of_mem_references hs).1
      rw [Reference.Before]
      dsimp only
      omega

/-- The bytes of an emission with a label: what comes before the address, and the address. -/
theorem exists_bytes_eq_append {l : Label} (hl : e.label? = some l) :
    ∃ opening : List UInt8, opening.length = e.siteIn ∧
      ∀ spell : Label → List UInt8, e.bytes spell = opening ++ spell l := by
  cases e with
  | operation op arg => contradiction
  | jump op m =>
    obtain rfl := Option.some.inj hl
    exact ⟨[op.code], rfl, fun _ => rfl⟩
  | reference m =>
    obtain rfl := Option.some.inj hl
    exact ⟨[], rfl, fun _ => rfl⟩

/-- **At a site stands the spelling** of its label. -/
theorem exists_split_of_mem_references (hspell : ∀ l, (spell l).length = 8)
    (hr : r ∈ references offset es) :
    ∃ pre post, es.flatMap (bytes spell) = pre ++ (spell r.2 ++ post) ∧
      offset + pre.length = r.1 := by
  induction es generalizing offset with
  | nil => contradiction
  | cons e es ih =>
    rw [references, List.mem_append, Option.mem_toList, Option.map_eq_some_iff] at hr
    rcases hr with ⟨l, hl, rfl⟩ | hr
    · obtain ⟨opening, hlength, hbytes⟩ := exists_bytes_eq_append hl
      refine ⟨opening, es.flatMap (bytes spell), ?_, by rw [hlength]⟩
      rw [List.flatMap_cons, hbytes, List.append_assoc]
    · obtain ⟨pre, post, heq, hplace⟩ := ih hr
      refine ⟨e.bytes spell ++ pre, post, ?_, ?_⟩
      · rw [List.flatMap_cons, heq, List.append_assoc]
      · rw [List.length_append, length_bytes hspell, ← hplace, Nat.add_assoc]

/-- **Writing addresses at all sites** spells every label as its address. -/
theorem toList_writeAll (hspell : ∀ l, (spell l).length = 8) (address : Label → Nat)
    {code : Array UInt8} (pre : List UInt8)
    (hcode : code.toList = pre ++ es.flatMap (bytes spell)) :
    (writeAll address code (references pre.length es)).toList =
      pre ++ es.flatMap (bytes fun l => Bytes.littleEndian 8 (address l)) := by
  have haddress (l : Label) : (Bytes.littleEndian 8 (address l)).length = 8 :=
    Bytes.length_littleEndian 8 _
  induction es generalizing code pre with
  | nil => exact hcode
  | cons e es ih =>
    -- Once this emission is written, the others are.
    have hlater {code : Array UInt8} (hcode : code.toList =
        (pre ++ e.bytes fun l => Bytes.littleEndian 8 (address l)) ++ es.flatMap (bytes spell)) :
        (writeAll address code (references (pre.length + e.length) es)).toList =
          pre ++ (e :: es).flatMap (bytes fun l => Bytes.littleEndian 8 (address l)) := by
      have hrest := ih _ hcode
      rwa [List.length_append, length_bytes haddress, List.append_assoc] at hrest
    rw [List.flatMap_cons, ← List.append_assoc] at hcode
    rw [references]
    cases hl : e.label? with
    | none =>
      have hbytes : (e.bytes fun l => Bytes.littleEndian 8 (address l)) = e.bytes spell := by
        cases e with
        | operation op arg => rfl
        | jump op m | reference m => contradiction
      rw [Option.map_none, Option.toList_none, List.nil_append]
      exact hlater (by rw [hbytes]; exact hcode)
    | some l =>
      obtain ⟨opening, hlength, hbytes⟩ := exists_bytes_eq_append hl
      have hwidth : (spell l).length = (Bytes.littleEndian 8 (address l)).length := by
        rw [hspell, haddress]
      rw [hbytes, ← List.append_assoc, List.append_assoc] at hcode
      have hwritten := Assembly.toList_writeAt (pre ++ opening) _ _ hcode hwidth
      rw [List.length_append, hlength] at hwritten
      rw [Option.map_some, Option.toList_some, List.singleton_append, Assembly.writeAll_cons]
      refine hlater ?_
      rw [hwritten, hbytes, List.append_assoc, List.append_assoc, List.append_assoc]

end Emission

/-! ## Sites that steps reserve -/

/-- The site that a step reserves when it succeeds: eight bytes from the current position on, or
after the opcode. -/
def AssemblyStep.reserves? (a : Assembly) : AssemblyStep → Option Assembly.Reference
  | .referTo l => some (a.position, l)
  | .emitJump _ l => some (a.position + 1, l)
  | _ => none

namespace Assembly

open Emission (references lengthAll)

/-- The sites that are reserved by the steps that succeed, in order. -/
def reserved (a : Assembly) : List AssemblyStep → List Reference
  | [] => []
  | step :: steps =>
    match a.perform step with
    | .ok (_, b) => (step.reserves? a).toList ++ b.reserved steps
    | .error _ => a.reserved steps

variable {a : Assembly} {es : List Emission}

/-- A step reserves the site of what it emits. -/
theorem LaidOut.reserves?_eq (h : a.LaidOut es) (step : AssemblyStep) :
    (step.reserves? a).toList = references (lengthAll es) (step.emission? a).toList := by
  rw [← h.position]
  cases step <;> rfl

/-- **The reserved sites are those of the emissions.** -/
theorem LaidOut.reserved_eq (h : a.LaidOut es) (steps : List AssemblyStep) :
    a.reserved steps = references (lengthAll es) (a.emittedAll steps) := by
  induction steps generalizing a es with
  | nil => rfl
  | cons step steps ih =>
    rw [reserved, emittedAll]
    cases hstep : a.perform step with
    | error e =>
      have hafter : a.after step = a := by rw [Assembly.after, hstep]
      rw [emitted, hstep, hafter]
      exact ih h
    | ok r =>
      have hafter : a.after step = r.2 := by rw [Assembly.after, hstep]
      have hlater := h.perform hstep
      rw [emitted, hstep, hafter]
      dsimp only
      rw [ih hlater, h.reserves?_eq, Emission.references_append]
      simp [lengthAll]

end Assembly
end StackMachine
