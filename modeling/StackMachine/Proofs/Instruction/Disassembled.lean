import StackMachine.Proofs.Instruction.Tiling
import StackMachine.Proofs.Listing.Disassembled
import StackMachine.Proofs.Text.ReadBack

/-!
# The whole code, decoded and shown

A disassembly begins each line with the offset of an instruction, so the offsets can be read off it
again (`listedOffsets`). With them the tiling of the code is stated of all that decodes code from
its start (`decoding_tiles_code`): the stream of instructions, a reader that is asked for one after
another, the list of all instructions, and the disassembly.
-/

namespace StackMachine

/-! ## The offsets of a disassembly -/

/-- The offsets that the lines of a disassembly begin with. Each line ends with a newline, so
nothing comes after the last one. -/
def listedOffsets (text : String) : List Nat :=
  (text.toList.splitOn '\n').dropLast.map fun line => Text.hexValue (line.takeWhile (· ≠ ' '))

theorem listedOffsets_texts (is : List Instruction) (p : Program) :
    listedOffsets (String.join (is.map fun i => i.text p ++ "\n")) = is.map Instruction.offset := by
  rw [listedOffsets, splitOn_texts, List.dropLast_concat, List.map_map]
  refine List.map_congr_left fun i _ => ?_
  rw [Function.comp_apply, (cut_text i p).1, Text.hexValue_padDigits]

/-! ## The whole code -/

/-- **Decoding tiles the code**, whatever bytes it is. Some instructions stand one after another
from offset 0 on, their bytes are the code as far as they go, and what is left is nothing or no
instruction begins with it.

* The stream has an item for each of them, and one more for the error if there is one; it is no
  longer than the code, and a reader that is asked any number of times gives as much of it.
* With no error, all instructions are decoded and the disassembly lists just their offsets.
* With an error, which is never that an offset is past the end of the code, both are refused with
  it. -/
theorem decoding_tiles_code (p : Program) :
    ∃ is stop, Tiling 0 p.code.toList is stop ∧
      instructions p.code = is.map .ok ++ (stop.map .error).toList ∧
      (instructions p.code).length ≤ p.code.size ∧
      (∀ n, InstructionReader.ask { code := p.code } n = (instructions p.code).take n) ∧
      match stop with
      | none =>
        p.decodeAll = .ok is ∧
          ∃ text, p.disassemble = .ok text ∧ listedOffsets text = is.map Instruction.offset
      | some e =>
        (∀ offset, e ≠ .outOfBounds offset) ∧
          p.decodeAll = .error e ∧ p.disassemble = .error e := by
  obtain ⟨is, stop, htiling, hstream⟩ := exists_tiling p.code 0
  refine ⟨is, stop, htiling, hstream, length_instructionsFrom_le p.code 0,
    InstructionReader.ask_eq p.code 0, ?_⟩
  cases stop with
  | none =>
    have hall := Program.decodeAll_of_instructions (hstream.trans (List.append_nil _))
    refine ⟨hall, _, ?_, listedOffsets_texts is p⟩
    rw [Program.disassemble, hall]
    rfl
  | some e =>
    have hall := Program.decodeAll_of_instructions_error hstream
    obtain ⟨rest, -, hundecodable⟩ := htiling.tiled
    refine ⟨hundecodable.ne_outOfBounds, hall, ?_⟩
    rw [Program.disassemble, hall]
    rfl

end StackMachine
