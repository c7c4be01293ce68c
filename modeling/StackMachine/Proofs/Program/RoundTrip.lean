import StackMachine.Command.Respond
import StackMachine.Proofs.Assembly.Pool
import StackMachine.Proofs.Listing.Acceptance
import StackMachine.Proofs.Program.Container

/-!
# Files of assembled programs

The pool of an assembled program has the right hashes, so its file is read back exactly when the
other condition of `Program.Storable` holds: no text has a NUL. Nothing keeps a NUL out of the pool;
a listing can spell one in a string.
-/

namespace StackMachine

/-- An assembled program is read back from its file exactly when no text of its pool has a NUL. -/
theorem Program.decode_encode_iff {steps : List AssemblyStep} {p : Program}
    (hp : (Assembly.afterAll {} steps).finish = .ok p) (hsize : p.code.size < 2 ^ 64 - 16) :
    Program.decode p.encode = .ok p ↔ ∀ e ∈ p.strings, '\x00' ∉ e.text.toList := by
  constructor
  · intro h e he
    exact ((eq_encode_of_decode h).1 e he).noNul
  · intro hnul
    have hlow : headerLength = 16 := rfl
    refine decode_encode (fun e he => ⟨hnul e he, ?_⟩) (by omega)
    rw [Assembly.strings_finish hp] at he
    exact (Assembly.genuine_of_mem_strings he).hash_eq

/-- A file that was written for a program is taken for a container when it is loaded. -/
theorem Command.loadProgram_encode (path : String) (p : Program) :
    loadProgram path p.encode = (Program.decode p.encode).mapError FormatError.diagnostic := by
  have hprefix : (containerMarker.take 5).isPrefixOf p.encode = true := by
    rw [List.isPrefixOf_iff_prefix, Program.encode_eq]
    exact (List.take_prefix 5 containerMarker).trans (List.prefix_append _ _)
  rw [loadProgram, if_pos hprefix]

/-- A program that steps assemble, or that a listing spells. -/
def Program.Assembled (p : Program) : Prop :=
  (∃ steps, (Assembly.afterAll {} steps).finish = .ok p) ∨
    ∃ source, Listing.assemble source = .ok p

/-- **Round trip of assembled programs.** The file of an assembled program with code shorter than
2⁶⁴ − 16 bytes is read back as that program, and is loaded as that program under any path, exactly
when no text of its pool has a NUL. -/
theorem assembled_file_read_back_iff {p : Program} (hp : p.Assembled)
    (hsize : p.code.size < 2 ^ 64 - 16) :
    (Program.decode p.encode = .ok p ↔ ∀ e ∈ p.strings, '\x00' ∉ e.text.toList) ∧
      ∀ path, Command.loadProgram path p.encode = .ok p ↔
        ∀ e ∈ p.strings, '\x00' ∉ e.text.toList := by
  obtain ⟨steps, hsteps⟩ : ∃ steps, (Assembly.afterAll {} steps).finish = .ok p := by
    rcases hp with hsteps | ⟨source, hsource⟩
    · exact hsteps
    · exact Listing.assemble_steps hsource
  have hiff := Program.decode_encode_iff hsteps hsize
  -- Loading is decoding here, because a file that was written begins like a container.
  refine ⟨hiff, fun path => ?_⟩
  rw [← hiff, Command.loadProgram_encode]
  cases Program.decode p.encode with
  | error e => exact ⟨nofun, nofun⟩
  | ok q => exact ⟨fun h => congrArg _ (Except.ok.inj h), fun h => congrArg _ (Except.ok.inj h)⟩

/-- The file of the listing that pushes a text with a NUL is not read back, and that of the listing
that pushes the text without it is. -/
theorem nul_text_not_read_back :
    let program (s : String) : Program := { code := #[5, 0, 0, 0, 0], strings := #[.ofText s] }
    (Listing.assemble "PSTR \"a\\0b\"" = .ok (program "a\x00b") ∧
      Program.decode (program "a\x00b").encode ≠ .ok (program "a\x00b")) ∧
    (Listing.assemble "PSTR \"ab\"" = .ok (program "ab") ∧
      Program.decode (program "ab").encode = .ok (program "ab")) := by
  intro program
  have hnul : Listing.assemble "PSTR \"a\\0b\"" = .ok (program "a\x00b") := by decide +kernel
  have hplain : Listing.assemble "PSTR \"ab\"" = .ok (program "ab") := by decide +kernel
  refine ⟨⟨hnul, fun h => ?_⟩, hplain, ?_⟩
  · have hread := (assembled_file_read_back_iff (.inr ⟨_, hnul⟩) (by decide)).1.1 h
    exact absurd hread (by decide)
  · exact (assembled_file_read_back_iff (.inr ⟨_, hplain⟩) (by decide)).1.2 (by decide)

end StackMachine
