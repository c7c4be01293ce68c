import StackMachine.Proofs.Assembly.Emission

/-!
# The pool of an assembly

A text that is emitted goes to the end of the pool with its own hash, and nothing else changes the
pool. So the pool grows by what the steps add to it, every entry keeps its index, and every entry
has the hash of its text.
-/

namespace StackMachine

/-- What a step adds to the pool when it succeeds. -/
def AssemblyStep.pooled : AssemblyStep → Array PoolEntry
  | .emitWith _ imm => imm.pooled
  | _ => #[]

/-- An entry that was made from its text. -/
def PoolEntry.Genuine (e : PoolEntry) : Prop := e = .ofText e.text

theorem PoolEntry.Genuine.hash_eq {e : PoolEntry} (h : e.Genuine) : e.hash = hashText e.text := by
  rw [h]
  rfl

theorem AssemblyStep.genuine_of_mem_pooled {step : AssemblyStep} {e : PoolEntry}
    (he : e ∈ step.pooled) : e.Genuine := by
  cases step with
  | emitWith op imm =>
    cases imm with
    | text s =>
      obtain rfl : e = .ofText s := by simpa [pooled, Immediate.pooled] using he
      rfl
    | _ => simp [pooled, Immediate.pooled] at he
  | _ => simp [pooled] at he

namespace Assembly

variable {a b : Assembly}

/-- A successful step adds its entries at the end of the pool. -/
theorem strings_perform {step : AssemblyStep} {reply : AssemblyReply}
    (h : a.perform step = .ok (reply, b)) : b.strings = a.strings ++ step.pooled := by
  have hnone : a.strings = a.strings ++ (#[] : Array PoolEntry) := Array.append_empty.symm
  cases step with
  | emit op =>
    obtain ⟨c, hemit, ⟨⟩⟩ := exists_of_map_ok h
    obtain ⟨-, rfl⟩ := emit_ok hemit
    exact hnone
  | emitWith op imm =>
    obtain ⟨c, hemit, ⟨⟩⟩ := exists_of_map_ok h
    obtain ⟨-, -, rfl⟩ := emitWith_ok hemit
    rfl
  | newLabel name =>
    cases h
    exact hnone
  | placeLabel label =>
    obtain ⟨c, hplace, ⟨⟩⟩ := exists_of_map_ok h
    obtain rfl := placeLabel_ok hplace
    exact hnone
  | referTo label =>
    obtain ⟨c, hrefer, ⟨⟩⟩ := exists_of_map_ok h
    obtain ⟨-, rfl⟩ := referTo_ok hrefer
    exact hnone
  | emitJump op label =>
    obtain ⟨c, hjump, ⟨⟩⟩ := exists_of_map_ok h
    obtain ⟨-, hrefer⟩ := emitJump_ok hjump
    obtain ⟨-, rfl⟩ := referTo_ok hrefer
    exact hnone
  | enterScope =>
    obtain ⟨c, henter, ⟨⟩⟩ := exists_of_map_ok (x := a.enterScope) h
    obtain rfl := enterScope_ok henter
    exact hnone
  | exitScope =>
    obtain ⟨c, hexit, ⟨⟩⟩ := exists_of_map_ok h
    obtain ⟨scopes, -, rfl⟩ := exitScope_ok hexit
    exact hnone
  | declare name isMutable =>
    obtain ⟨⟨index, c⟩, hdeclare, ⟨⟩⟩ := exists_of_map_ok h
    obtain ⟨-, -, rfl⟩ := declare_ok hdeclare
    exact hnone
  | resolve name =>
    obtain ⟨binding, -, ⟨⟩⟩ := exists_of_map_ok h
    exact hnone

/-- The pool after a sequence of steps begins with the pool before it. -/
theorem exists_strings_afterAll (a : Assembly) (steps : List AssemblyStep) :
    ∃ added : Array PoolEntry, (a.afterAll steps).strings = a.strings ++ added ∧
      ∀ e ∈ added, e.Genuine := by
  induction steps generalizing a with
  | nil => exact ⟨#[], Array.append_empty.symm, by simp⟩
  | cons step steps ih =>
    obtain ⟨added, hadded, hgenuine⟩ := ih (a.after step)
    rw [afterAll, List.foldl_cons]
    -- A step that fails leaves the assembly as it is.
    cases hstep : a.perform step with
    | error e =>
      have hafter : a.after step = a := by rw [after, hstep]
      rw [hafter] at hadded ⊢
      exact ⟨added, hadded, hgenuine⟩
    | ok r =>
      obtain ⟨reply, b⟩ := r
      have hafter : a.after step = b := by rw [after, hstep]
      rw [hafter] at hadded ⊢
      refine ⟨step.pooled ++ added, ?_, ?_⟩
      · rw [← Array.append_assoc, ← strings_perform hstep]
        exact hadded
      · intro e he
        rcases Array.mem_append.1 he with he | he
        · exact AssemblyStep.genuine_of_mem_pooled he
        · exact hgenuine e he

/-- **Every hash in the pool of an assembly is that of its text.** -/
theorem genuine_of_mem_strings {steps : List AssemblyStep} {e : PoolEntry}
    (he : e ∈ (afterAll {} steps).strings) : e.Genuine := by
  obtain ⟨added, hadded, hgenuine⟩ := exists_strings_afterAll {} steps
  rw [hadded] at he
  exact hgenuine e (by simpa using he)

/-- Finishing keeps the pool. -/
theorem strings_finish {p : Program} (h : a.finish = .ok p) : p.strings = a.strings := by
  unfold finish at h
  cases hpatch : patchAll a.code 0 a.labels.toList with
  | error e => rw [hpatch] at h; contradiction
  | ok code =>
    rw [hpatch] at h
    obtain rfl := Except.ok.inj h
    rfl

end Assembly
end StackMachine
