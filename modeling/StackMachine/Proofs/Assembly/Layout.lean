import StackMachine.Proofs.Assembly.Emission

/-!
# The layout of code under construction

`Assembly.LaidOut` ties an assembly to the sequence of its emissions: the code is their bytes with a
placeholder for every label, each label knows the sites where its address is to be written, and each
address that was given to a label is where an emission begins or the last one ends. Every step keeps
the layout, so it holds after every sequence of steps.
-/

namespace StackMachine.Assembly

open Emission (sitesFrom lengthAll)

/-- **The layout invariant** of an assembly whose steps emitted `es`. -/
structure LaidOut (a : Assembly) (es : List Emission) : Prop where
  code : a.code.toList = es.flatMap (Emission.bytes fun _ => placeholder)
  shaped : ∀ e ∈ es, e.WellShaped
  known : ∀ e ∈ es, ∀ l, e.label? = some l → l.index < a.labels.size
  sites : ∀ (l : Label) (slot : LabelSlot), a.labels[l.index]? = some slot →
    slot.sites = (sitesFrom l 0 es).reverse
  addresses : ∀ slot ∈ a.labels, ∀ x, slot.address = some x →
    ∃ before, before <+: es ∧ x = lengthAll before

variable {a b : Assembly} {es : List Emission}

theorem length_placeholder : placeholder.length = 8 := rfl

theorem laidOut_empty : LaidOut {} [] where
  code := rfl
  shaped := by simp
  known := by simp
  sites := by simp
  addresses := by simp

theorem LaidOut.position (h : a.LaidOut es) : a.position = lengthAll es := by
  rw [Assembly.position, ← Array.length_toList, h.code,
    Emission.length_flatMap_bytes fun _ => length_placeholder]

/-! ## One emission more -/

theorem LaidOut.shaped_append (h : a.LaidOut es) {e : Emission} (hshape : e.WellShaped) :
    ∀ f ∈ es ++ [e], f.WellShaped := by
  intro f hf
  rcases List.mem_append.1 hf with hf | hf
  · exact h.shaped f hf
  · obtain rfl := List.mem_singleton.1 hf
    exact hshape

theorem LaidOut.known_append (h : a.LaidOut es) {e : Emission}
    (hknown : ∀ l, e.label? = some l → l.index < a.labels.size) :
    ∀ f ∈ es ++ [e], ∀ l, f.label? = some l → l.index < a.labels.size := by
  intro f hf l hl
  rcases List.mem_append.1 hf with hf | hf
  · exact h.known f hf l hl
  · obtain rfl := List.mem_singleton.1 hf
    exact hknown l hl

/-- What addresses stand for does not depend on later emissions. -/
theorem LaidOut.addresses_append (h : a.LaidOut es) (e : Emission) {slot : LabelSlot}
    (hslot : slot ∈ a.labels) {x : Nat} (hx : slot.address = some x) :
    ∃ before, before <+: es ++ [e] ∧ x = lengthAll before := by
  obtain ⟨before, hbefore, hlen⟩ := h.addresses slot hslot x hx
  exact ⟨before, hbefore.trans (List.prefix_append _ _), hlen⟩

/-! ## What each kind of step keeps -/

/-- Only the code and the labels matter to the layout. -/
theorem LaidOut.congr (h : a.LaidOut es) (hcode : b.code = a.code) (hlabels : b.labels = a.labels) :
    b.LaidOut es where
  code := by rw [hcode]; exact h.code
  shaped := h.shaped
  known := by rw [hlabels]; exact h.known
  sites := by rw [hlabels]; exact h.sites
  addresses := by rw [hlabels]; exact h.addresses

theorem LaidOut.operation (h : a.LaidOut es) {op : Opcode} (arg : Argument)
    (hshape : arg.shape = op.shape) (hcode : b.code = a.code ++ (op.code :: arg.bytes))
    (hlabels : b.labels = a.labels) : b.LaidOut (es ++ [.operation op arg]) where
  code := by
    rw [hcode, Array.toList_appendList, h.code, List.flatMap_append]
    simp [Emission.bytes]
  shaped := h.shaped_append hshape
  known := by
    rw [hlabels]
    refine h.known_append fun l hl => ?_
    contradiction
  sites := by
    intro l slot hslot
    rw [hlabels] at hslot
    rw [Emission.sitesFrom_append, h.sites l slot hslot]
    simp [sitesFrom, Emission.label?]
  addresses := by
    intro slot hslot x hx
    rw [hlabels] at hslot
    exact h.addresses_append _ hslot hx

/-- A new label has no sites yet, because no emission mentions it. -/
theorem LaidOut.newLabel (h : a.LaidOut es) (name : Option String) :
    (a.newLabel name).2.LaidOut es where
  code := h.code
  shaped := h.shaped
  known := by
    intro e he l hl
    have := h.known e he l hl
    simp only [Assembly.newLabel, Array.size_push]
    omega
  sites := by
    intro l slot hslot
    simp only [Assembly.newLabel, Array.getElem?_push] at hslot
    split at hslot
    · next hlast =>
      obtain rfl := Option.some.inj hslot
      have hnone : ∀ e ∈ es, e.label? ≠ some l := by
        intro e he hl
        have := h.known e he l hl
        omega
      rw [Emission.sitesFrom_eq_nil hnone]
      rfl
    · exact h.sites l slot hslot
  addresses := by
    intro slot hslot x hx
    rcases Array.mem_push.1 hslot with hslot | rfl
    · exact h.addresses slot hslot x hx
    · contradiction

theorem LaidOut.placeLabel (h : a.LaidOut es) {label : Label}
    (hplace : a.placeLabel label = .ok b) : b.LaidOut es := by
  obtain rfl := placeLabel_ok hplace
  refine ⟨h.code, h.shaped, ?_, ?_, ?_⟩
  · intro e he l hl
    simpa using h.known e he l hl
  · intro l slot hslot
    simp only [Array.getElem?_modify] at hslot
    split at hslot
    · obtain ⟨old, hold, rfl⟩ := Option.map_eq_some_iff.1 hslot
      exact h.sites l old hold
    · exact h.sites l slot hslot
  · intro slot hslot x hx
    obtain ⟨i, hi⟩ := Array.mem_iff_getElem?.1 hslot
    simp only [Array.getElem?_modify] at hi
    split at hi
    · obtain ⟨old, -, rfl⟩ := Option.map_eq_some_iff.1 hi
      obtain rfl := Option.some.inj hx
      exact ⟨es, List.prefix_refl es, h.position⟩
    · exact h.addresses slot (Array.mem_iff_getElem?.2 ⟨i, hi⟩) x hx

/-- An emission that ends with the address of a label: the opcode bytes before it are `opening`. -/
theorem LaidOut.referTo (h : a.LaidOut es) {e : Emission} {label : Label}
    (opening : List UInt8) (hlabel : e.label? = some label) (hshape : e.WellShaped)
    (hbytes : e.bytes (fun _ => placeholder) = opening ++ placeholder)
    (hsite : e.siteIn = opening.length)
    (hrefer : (a.append opening).referTo label = .ok b) : b.LaidOut (es ++ [e]) := by
  obtain ⟨hknown, rfl⟩ := referTo_ok hrefer
  have hposition : (a.append opening).position = lengthAll es + e.siteIn := by
    rw [hsite, ← h.position, position_append]
  refine ⟨?_, h.shaped_append hshape, ?_, ?_, ?_⟩
  · simp only [Assembly.append, Array.toList_appendList, h.code, List.flatMap_append,
      List.flatMap_singleton, hbytes, List.append_assoc]
  · simp only [Array.size_modify]
    refine h.known_append fun l hl => ?_
    rw [hlabel] at hl
    obtain rfl := Option.some.inj hl
    exact hknown
  · intro l slot hslot
    simp only [Array.getElem?_modify] at hslot
    rw [Emission.sitesFrom_append, List.reverse_append]
    split at hslot
    · next hl =>
      -- The label of this emission: its new site is the newest.
      obtain ⟨old, hold, rfl⟩ := Option.map_eq_some_iff.1 hslot
      obtain rfl : label = l := by cases label; cases l; simp_all
      simp only [hposition, h.sites label old hold]
      simp [sitesFrom, hlabel]
    · next hl =>
      have hne : e.label? ≠ some l := by
        rw [hlabel]
        rintro ⟨⟩
        exact hl rfl
      rw [Emission.sitesFrom_eq_nil (by simpa using hne)]
      simpa using h.sites l slot hslot
  · intro slot hslot x hx
    obtain ⟨i, hi⟩ := Array.mem_iff_getElem?.1 hslot
    simp only [Array.getElem?_modify] at hi
    -- A new site does not change the address of its label.
    split at hi
    · obtain ⟨old, hold, rfl⟩ := Option.map_eq_some_iff.1 hi
      exact h.addresses_append e (Array.mem_iff_getElem?.2 ⟨i, hold⟩) hx
    · exact h.addresses_append e (Array.mem_iff_getElem?.2 ⟨i, hi⟩) hx

theorem LaidOut.emitJump (h : a.LaidOut es) {op : Opcode} {label : Label}
    (hjump : a.emitJump op label = .ok b) : b.LaidOut (es ++ [.jump op label]) := by
  obtain ⟨hshape, hrefer⟩ := emitJump_ok hjump
  exact h.referTo [op.code] rfl hshape rfl rfl hrefer

/-! ## Runs of steps -/

/-- **A successful step keeps the layout**, with what it emits at the end. -/
theorem LaidOut.perform (h : a.LaidOut es) {step : AssemblyStep} {reply : AssemblyReply}
    (hstep : a.perform step = .ok (reply, b)) : b.LaidOut (es ++ (step.emission? a).toList) := by
  cases step with
  | emit op =>
    obtain ⟨c, hemit, ⟨⟩⟩ := exists_of_map_ok hstep
    obtain ⟨hshape, rfl⟩ := emit_ok hemit
    exact h.operation .none hshape.symm rfl rfl
  | emitWith op imm =>
    obtain ⟨c, hemit, ⟨⟩⟩ := exists_of_map_ok hstep
    obtain ⟨hshape, -, rfl⟩ := emitWith_ok hemit
    exact h.operation _ (by simpa using hshape) rfl rfl
  | newLabel name =>
    cases hstep
    simpa [AssemblyStep.emission?] using h.newLabel name
  | placeLabel label =>
    obtain ⟨c, hplace, ⟨⟩⟩ := exists_of_map_ok hstep
    simpa [AssemblyStep.emission?] using h.placeLabel hplace
  | referTo label =>
    obtain ⟨c, hrefer, ⟨⟩⟩ := exists_of_map_ok hstep
    exact h.referTo [] rfl trivial rfl rfl (by simpa [append] using hrefer)
  | emitJump op label =>
    obtain ⟨c, hjump, ⟨⟩⟩ := exists_of_map_ok hstep
    exact h.emitJump hjump
  | enterScope =>
    obtain ⟨c, henter, ⟨⟩⟩ := exists_of_map_ok (x := a.enterScope) hstep
    obtain rfl := enterScope_ok henter
    exact h.operation .none rfl rfl rfl
  | exitScope =>
    obtain ⟨c, hexit, ⟨⟩⟩ := exists_of_map_ok hstep
    obtain ⟨scopes, -, rfl⟩ := exitScope_ok hexit
    exact h.operation .none rfl rfl rfl
  | declare name isMutable =>
    obtain ⟨⟨index, c⟩, hdeclare, ⟨⟩⟩ := exists_of_map_ok hstep
    obtain ⟨-, -, rfl⟩ := declare_ok hdeclare
    rw [AssemblyStep.emission?, Option.toList_none, List.append_nil]
    exact h.congr rfl rfl
  | resolve name =>
    obtain ⟨binding, -, ⟨⟩⟩ := exists_of_map_ok hstep
    simpa [AssemblyStep.emission?] using h

theorem LaidOut.after (h : a.LaidOut es) (step : AssemblyStep) :
    (a.after step).LaidOut (es ++ a.emitted step) := by
  unfold Assembly.after emitted
  cases hstep : a.perform step with
  | error e => simpa using h
  | ok r => exact h.perform hstep

/-- **Every sequence of steps keeps the layout.** -/
theorem LaidOut.afterAll (h : a.LaidOut es) (steps : List AssemblyStep) :
    (a.afterAll steps).LaidOut (es ++ a.emittedAll steps) := by
  induction steps generalizing a es with
  | nil => simpa [Assembly.afterAll, emittedAll] using h
  | cons step steps ih =>
    rw [emittedAll, ← List.append_assoc]
    exact ih (h.after step)

/-- An assembly that began empty is laid out as its steps emitted. -/
theorem laidOut_afterAll (steps : List AssemblyStep) :
    (afterAll {} steps).LaidOut (emittedAll {} steps) := by
  simpa using laidOut_empty.afterAll steps

end StackMachine.Assembly
