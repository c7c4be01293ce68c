import Mathlib
import StackMachine.Program.Basic

/-!
# The instruction stream

Where the stream of the code yields instructions, and how it goes on after each of them. An address
is a landing of a program when the stream yields an instruction there or the code ends there; in
code that the stream reads without an error, the address after an instruction is a landing again.
-/

namespace StackMachine

variable {code : Array UInt8} {offset : Nat} {i : Instruction}

/-! ## Going on after an instruction -/

/-- An instruction lies inside the code. -/
theorem next_le_of_decode (h : decode code offset = .ok i) : i.next ≤ code.size := by
  obtain rfl := offset_of_decode h
  unfold decode at h
  split at h
  · contradiction
  · next byte hbyte =>
    obtain ⟨hlt, -⟩ := Array.getElem?_eq_some_iff.1 hbyte
    split at h
    · contradiction
    · dsimp only at h
      split at h
      · contradiction
      · next hroom =>
        have hop := congrArg Instruction.opcode (Except.ok.inj h)
        simp only at hop
        rw [Instruction.next, Opcode.size, ← hop]
        omega

/-- The byte of an opcode that is decoded is in the code. -/
theorem code_mem_of_decode (h : decode code offset = .ok i) : i.opcode.code ∈ code := by
  unfold decode at h
  split at h
  · contradiction
  · next byte hbyte =>
    split at h
    · contradiction
    · next op hop =>
      dsimp only at h
      split at h
      · contradiction
      · obtain rfl := Except.ok.inj h
        rw [← Opcode.ofByte?_eq_some_iff.1 hop]
        exact Array.mem_of_getElem? hbyte

/-- The first item of the stream is what is decoded there. -/
theorem head_mem_instructionsFrom (h : offset < code.size) :
    decode code offset ∈ instructionsFrom code offset := by
  cases hdecode : decode code offset with
  | ok i => simp [instructionsFrom_of_decode_ok h hdecode]
  | error e => simp [instructionsFrom_of_decode_error h hdecode]

/-- **How the stream goes on.** An instruction of the stream is the one that is decoded at its
offset, and what is decoded after it, if the code goes on, is in the stream too. -/
theorem follow_of_mem_instructionsFrom (h : .ok i ∈ instructionsFrom code offset) :
    decode code i.offset = .ok i ∧
      (i.next < code.size → decode code i.next ∈ instructionsFrom code offset) := by
  induction offset using instructionsFrom.induct code with
  | case1 offset hlt e he =>
    rw [instructionsFrom_of_decode_error hlt he] at h
    simp at h
  | case2 j _ hlt hj ih =>
    rw [instructionsFrom_of_decode_ok hlt hj] at h ⊢
    rcases List.mem_cons.1 h with heq | hmem
    · obtain rfl := Except.ok.inj heq
      exact ⟨hj, fun hnext => List.mem_cons_of_mem _ (head_mem_instructionsFrom hnext)⟩
    · obtain ⟨hdecode, hrest⟩ := ih hmem
      exact ⟨hdecode, fun hnext => List.mem_cons_of_mem _ (hrest hnext)⟩
  | case3 offset hge =>
    rw [instructionsFrom_of_size_le (Nat.not_lt.1 hge)] at h
    simp at h

/-! ## Landings -/

namespace Program

/-- An address where control may stand: the stream yields an instruction there, or the code ends
there. -/
def Landing (p : Program) (address : Nat) : Prop :=
  address = p.code.size ∨ ∃ i, .ok i ∈ instructions p.code ∧ i.offset = address

/-- The stream of the code has no error. -/
def Decodes (p : Program) : Prop := ∀ x ∈ instructions p.code, ∃ i, x = .ok i

variable {p : Program} {address : Nat}

theorem Landing.le_size (h : p.Landing address) : address ≤ p.code.size := by
  rcases h with rfl | ⟨i, hi, rfl⟩
  · exact Nat.le_refl _
  · have hnext := next_le_of_decode (follow_of_mem_instructionsFrom hi).1
    have hlt := i.lt_next
    omega

/-- At a landing inside the code an instruction of the stream is decoded. -/
theorem Landing.exists_decode (h : p.Landing address) (hlt : address < p.code.size) :
    ∃ i, StackMachine.decode p.code address = .ok i ∧ .ok i ∈ instructions p.code := by
  rcases h with rfl | ⟨i, hi, rfl⟩
  · exact absurd hlt (Nat.lt_irrefl _)
  · exact ⟨i, (follow_of_mem_instructionsFrom hi).1, hi⟩

/-- What is decoded in the stream is a landing, when the stream has no error. -/
private theorem Decodes.landing_of_mem (hp : p.Decodes)
    (h : StackMachine.decode p.code address ∈ instructions p.code) : p.Landing address := by
  obtain ⟨i, hi⟩ := hp _ h
  exact Or.inr ⟨i, hi ▸ h, offset_of_decode hi⟩

/-- The beginning of the code is a landing. -/
theorem Decodes.landing_zero (hp : p.Decodes) : p.Landing 0 := by
  by_cases hempty : p.code.size = 0
  · exact Or.inl hempty.symm
  · exact hp.landing_of_mem (head_mem_instructionsFrom (Nat.pos_of_ne_zero hempty))

/-- **The address after an instruction is a landing.** -/
theorem Decodes.landing_next (hp : p.Decodes) {i : Instruction}
    (hi : .ok i ∈ instructions p.code) : p.Landing i.next := by
  obtain ⟨hdecode, hnext⟩ := follow_of_mem_instructionsFrom hi
  rcases Nat.lt_or_eq_of_le (next_le_of_decode hdecode) with hlt | heq
  · exact hp.landing_of_mem (hnext hlt)
  · exact Or.inl heq

end Program
end StackMachine
