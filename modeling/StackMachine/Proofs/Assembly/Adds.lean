import StackMachine.Proofs.Assembly.Emission
import StackMachine.Proofs.Instruction.Layout

/-!
# One instruction more

An assembly that adds one instruction to another, and assemblies whose code and pool a program
begins with. Where a program begins with an assembly that adds an instruction, that instruction is
decoded at the position before it, whatever comes later.
-/

namespace StackMachine.Assembly

variable {a b c : Assembly} {op : Opcode} {arg : Argument} {p : Program}

/-- The code and the pool of the program begin with those of the assembly. -/
structure Below (a : Assembly) (p : Program) : Prop where
  code : a.code.toList <+: p.code.toList
  strings : a.strings.toList <+: p.strings.toList

/-- One assembly is another with one instruction more, perhaps with a text for it. -/
structure Adds (a b : Assembly) (op : Opcode) (arg : Argument) : Prop where
  shaped : arg.shape = op.shape
  code : b.code = a.code ++ (op.code :: arg.bytes)
  strings : ∃ added : Array PoolEntry, b.strings = a.strings ++ added
  labels : b.labels = a.labels
  scopes : b.scopes = a.scopes

/-- What one assembly has placed, the other has too, and no new labels. -/
structure Grows (a b : Assembly) : Prop where
  labels : b.labels = a.labels
  below : ∀ p, b.Below p → a.Below p

theorem Grows.refl (a : Assembly) : a.Grows a := ⟨rfl, fun _ h => h⟩

theorem Grows.trans (hab : a.Grows b) (hbc : b.Grows c) : a.Grows c where
  labels := hbc.labels.trans hab.labels
  below := fun p h => hab.below p (hbc.below p h)

/-- Scopes have no part in the code. -/
theorem grows_scopes (a : Assembly) (scopes : Scopes) : a.Grows { a with scopes } :=
  ⟨rfl, fun _ h => ⟨h.code, h.strings⟩⟩

theorem adds_of_emit (h : a.emit op = .ok b) : a.Adds b op .none := by
  obtain ⟨hshape, rfl⟩ := emit_ok h
  exact ⟨hshape.symm, rfl, ⟨#[], Array.append_empty.symm⟩, rfl, rfl⟩

theorem adds_of_emitWith {imm : Immediate} (h : a.emitWith op imm = .ok b) :
    a.Adds b op (imm.argument a.strings.size) := by
  obtain ⟨hshape, -, rfl⟩ := emitWith_ok h
  exact ⟨by rw [Immediate.shape_argument, hshape], rfl, ⟨imm.pooled, rfl⟩, rfl, rfl⟩

/-- A text that is emitted is in the pool at the index that is its operand. -/
theorem getElem?_of_emitWith_text {s : String} (h : a.emitWith op (.text s) = .ok b)
    (hbelow : b.Below p) :
    p.strings[((Immediate.text s).argument a.strings.size).toNat?.getD 0]? =
      some (.ofText s) := by
  have hindex := toNat_index_of_emitWith h
  obtain ⟨-, -, rfl⟩ := emitWith_ok h
  obtain ⟨later, hlater⟩ := hbelow.strings
  simp only [Immediate.argument, Argument.toNat?, Option.getD_some, hindex]
  rw [← Array.getElem?_toList, ← hlater]
  simp [Immediate.pooled]

namespace Adds

theorem position (h : a.Adds b op arg) : b.position = a.position + op.size := by
  have hlen : (op.code :: arg.bytes).length = op.size :=
    length_operationBytes (x := (op, arg)) h.shaped
  rw [Assembly.position, h.code, ← Array.length_toList, Array.toList_appendList,
    List.length_append, hlen, Array.length_toList, Assembly.position]

theorem grows (h : a.Adds b op arg) : a.Grows b where
  labels := h.labels
  below := by
    intro p hbelow
    obtain ⟨added, hadded⟩ := h.strings
    constructor
    · refine List.IsPrefix.trans ?_ hbelow.code
      rw [h.code, Array.toList_appendList]
      exact List.prefix_append _ _
    · refine List.IsPrefix.trans ?_ hbelow.strings
      rw [hadded, Array.toList_append]
      exact List.prefix_append _ _

/-- **The added instruction is decoded** at the position before it. -/
theorem decode (h : a.Adds b op arg) (hbelow : b.Below p) :
    StackMachine.decode p.code a.position = .ok ⟨a.position, op, arg⟩ := by
  obtain ⟨later, hlater⟩ := hbelow.code
  rw [h.code, Array.toList_appendList, List.append_assoc] at hlater
  exact decode_of_toList (i := ⟨a.position, op, arg⟩) h.shaped Array.length_toList.symm
    hlater.symm

end Adds
end StackMachine.Assembly
