import StackMachine.Proofs.Listing.Cutting
import StackMachine.Proofs.Listing.Literals
import StackMachine.Proofs.Listing.Rebuilding

/-!
# Operations spelled on lines

Operations as lines of a listing, a mnemonic and an operand on each, where a number is spelled as it
is printed and a text as it is quoted. The tokens of the lines spell the operations again, with
every number as it is read back (`spells_lines`); but no tokens can be cut where a text has a
character that is shown by number (`lexFrom_lines`).
-/

namespace StackMachine

/-! ## Operations as they are read back -/

/-- An operand as it is read back from its text. -/
def Argument.reread : Argument → Argument
  | .f64 x => .f64 x.reread
  | a => a

@[simp] theorem Argument.shape_reread (a : Argument) : a.reread.shape = a.shape := by
  cases a <;> rfl

@[simp] theorem Argument.textIndex?_reread (a : Argument) :
    a.reread.textIndex? = a.textIndex? := by
  cases a <;> rfl

/-- An operation as it is read back from its line. -/
def rereadOperation (x : Opcode × Argument) : Opcode × Argument := (x.1, x.2.reread)

namespace Listing

open Text (ShownByNumber)

variable {strings : Array PoolEntry} {op : Opcode} {a : Argument} {x : Opcode × Argument}
  {xs : List (Opcode × Argument)} {tokens : List Token}

/-! ## Lines -/

/-- The characters of an operand on a line, with the space before it. -/
def operandText (strings : Array PoolEntry) : Argument → List Char
  | .none => []
  | .u8 n => ' ' :: Nat.toDigits 10 n.toNat
  | .u16 n => ' ' :: Nat.toDigits 10 n.toNat
  | .u32 n => ' ' :: Nat.toDigits 10 n.toNat
  | .u64 n => ' ' :: Nat.toDigits 10 n.toNat
  | .f64 x => ' ' :: x.text.toList
  | .string index => ' ' :: (Text.quoted (textAt strings index)).toList

/-- The characters of the line of an operation. -/
def operationText (strings : Array PoolEntry) (x : Opcode × Argument) : List Char :=
  x.1.mnemonic.toList ++ operandText strings x.2

/-- The characters of the lines of operations. -/
def operationLines (strings : Array PoolEntry) (xs : List (Opcode × Argument)) : List Char :=
  xs.flatMap fun x => operationText strings x ++ ['\n']

theorem operationLines_cons (strings : Array PoolEntry) (x : Opcode × Argument)
    (xs : List (Opcode × Argument)) : operationLines strings (x :: xs) =
      operationText strings x ++ '\n' :: operationLines strings xs := by
  rw [operationLines, List.flatMap_cons, List.append_assoc]
  rfl

/-- The text of a string operand has no character that is shown by number. -/
def Readable (strings : Array PoolEntry) (a : Argument) : Prop :=
  ∀ index, a = .string index → ∀ c ∈ (textAt strings index).toList, ¬ShownByNumber c

/-! ## Operands -/

/-- A number on its own line is cut into tokens that spell it as it is read back. -/
theorem exists_cutInto_spelled {s : String} {x : Number} (h : Number.Spelled s x)
    (hshape : op.shape = .f64) (rest : List Char) :
    ∃ tokens, CutInto (s.toList ++ '\n' :: rest) tokens ('\n' :: rest) ∧
      SpellsOperand op tokens (.emitWith op (.f64 x)) := by
  have hword (c : Char) (cs : List Char) (hc : isNameStart c) (hcs : cs.all isNamePart) :
      CutInto (c :: cs ++ '\n' :: rest) [.word (String.ofList (c :: cs))] ('\n' :: rest) :=
    CutInto.word hc (List.all_eq_true.1 hcs) (by decide) (by decide) rest
  have hinfinity := hword 'i' ['n', 'f'] (by decide) (by decide)
  cases h with
  | nan => exact ⟨_, hword 'n' ['a', 'n'] (by decide) (by decide), .number hshape .nan⟩
  | infinity => exact ⟨_, hinfinity, .number hshape .infinity⟩
  | negativeInfinity =>
    have hminus : CutInto ('-' :: ("inf".toList ++ '\n' :: rest)) [.minus]
        ("inf".toList ++ '\n' :: rest) := CutInto.token (n := 0) rfl
    exact ⟨[.minus, .word "inf"], hminus.trans hinfinity, .minus hshape .infinity⟩
  | @numeral digits hdigits =>
    have hspells : SpellsOperand op [.number (String.ofList digits)] _ := .numeral hshape
    rw [String.toList_ofList] at hspells ⊢
    exact ⟨_, CutInto.numeral hdigits rest, hspells⟩
  | @negativeNumeral digits hdigits =>
    have hspells : SpellsOperand op [.number (String.ofList ('-' :: digits))] _ := .numeral hshape
    rw [String.toList_ofList] at hspells ⊢
    exact ⟨_, CutInto.negativeNumeral hdigits rest, hspells⟩

/-- The digits of a natural number on their own line. -/
theorem cutInto_toDigits (n : Nat) (rest : List Char) :
    CutInto (Nat.toDigits 10 n ++ '\n' :: rest) [.number (Text.decimal n)] ('\n' :: rest) :=
  CutInto.numeral (Number.plainNumeral_toDigits n) rest

theorem spellsNatural_decimal (n : Nat) : SpellsNatural (Text.decimal n) n := by
  rw [SpellsNatural, Text.decimal, String.toList_ofList]
  exact ⟨fun _ => Number.isDigit_of_mem_toDigits, Number.digitsValue_toDigits n⟩

/-- The piece that quoted text makes. -/
theorem piece_quoted (s : String) (rest : List Char) :
    piece '"' (s.toList.flatMap Text.quoteChar ++ '"' :: rest) =
      (if ∃ c ∈ s.toList, ShownByNumber c then .unexpected else .token (.text s),
        (s.toList.flatMap Text.quoteChar).length + 1) := by
  have hpiece := literalPiece_quoted s.toList rest
  rw [String.ofList_toList] at hpiece
  exact hpiece

theorem toList_quoted (s : String) :
    (Text.quoted s).toList = '"' :: (s.toList.flatMap Text.quoteChar ++ ['"']) := by
  rw [Text.quoted, String.toList_ofList]
  rfl

/-- **The operand of a line is cut into tokens that spell it** as it is read back. -/
theorem exists_cutInto_operandText (hshape : a.shape = op.shape) (hreadable : Readable strings a)
    (rest : List Char) :
    ∃ tokens, CutInto (operandText strings a ++ '\n' :: rest) tokens ('\n' :: rest) ∧
      SpellsOperand op tokens (callOf strings (rereadOperation (op, a))) := by
  have hspace {cs : List Char} {tokens : List Token} (h : CutInto cs tokens ('\n' :: rest)) :
      CutInto (' ' :: cs) tokens ('\n' :: rest) := (CutInto.space cs).trans h
  cases a with
  | none => exact ⟨[], .refl _, .none hshape.symm⟩
  | u8 n => exact ⟨_, hspace (cutInto_toDigits _ rest), .u8 hshape.symm (spellsNatural_decimal _)⟩
  | u16 n => exact ⟨_, hspace (cutInto_toDigits _ rest), .u16 hshape.symm (spellsNatural_decimal _)⟩
  | u32 n => exact ⟨_, hspace (cutInto_toDigits _ rest), .u32 hshape.symm (spellsNatural_decimal _)⟩
  | u64 n => exact ⟨_, hspace (cutInto_toDigits _ rest), .u64 hshape.symm (spellsNatural_decimal _)⟩
  | f64 x =>
    obtain ⟨tokens, hcut, hspells⟩ := exists_cutInto_spelled x.spelled_text hshape.symm rest
    exact ⟨tokens, hspace hcut, hspells⟩
  | string index =>
    have hplain : ¬∃ c ∈ (textAt strings index).toList, ShownByNumber c := by
      rintro ⟨c, hc, hnumber⟩
      exact hreadable index rfl c hc hnumber
    have hpiece := piece_quoted (textAt strings index) ('\n' :: rest)
    rw [if_neg hplain] at hpiece
    refine ⟨[.text (textAt strings index)], hspace ?_, .text hshape.symm⟩
    have hcut := CutInto.token hpiece
    rw [← List.drop_drop, List.drop_left] at hcut
    rw [toList_quoted]
    show CutInto ('"' :: (_ ++ ['"'] ++ '\n' :: rest)) _ _
    rwa [List.append_assoc]

/-- No token can be cut where a text has a character that is shown by number. -/
theorem lexFrom_operandText_error (hreadable : ¬Readable strings a) (rest : List Char)
    (offset : Nat) : ∃ e, lexFrom offset (operandText strings a ++ '\n' :: rest) = .error e := by
  simp only [Readable, not_forall, not_not] at hreadable
  obtain ⟨index, rfl, c, hc, hnumber⟩ := hreadable
  have hpiece := piece_quoted (textAt strings index) ('\n' :: rest)
  rw [if_pos ⟨c, hc, hnumber⟩] at hpiece
  refine (CutInto.space _).lexFrom_error (fun offset => ?_) offset
  rw [toList_quoted]
  show ∃ e, lexFrom offset ('"' :: (_ ++ ['"'] ++ '\n' :: rest)) = .error e
  rw [List.append_assoc]
  exact ⟨_, lexFrom_of_unexpected hpiece offset⟩

/-! ## Operations -/

theorem exists_mnemonic (op : Opcode) :
    ∃ c cs, op.mnemonic.toList = c :: cs ∧ isNameStart c ∧ ∀ d ∈ cs, isNamePart d := by
  cases op <;> exact ⟨_, _, rfl, by decide, List.all_eq_true.1 (by decide)⟩

theorem spellsMnemonic_mnemonic (op : Opcode) : SpellsMnemonic op.mnemonic op := by
  cases op <;> rfl

/-- What follows a mnemonic ends it. -/
theorem operandText_append_newline (strings : Array PoolEntry) (a : Argument) (rest : List Char) :
    ∃ c cs, operandText strings a ++ '\n' :: rest = c :: cs ∧ isNamePart c = false ∧ c ≠ ':' := by
  cases a <;> exact ⟨_, _, rfl, by decide, by decide⟩

theorem cutInto_mnemonic (op : Opcode) (strings : Array PoolEntry) (a : Argument)
    (rest : List Char) :
    CutInto (operationText strings (op, a) ++ '\n' :: rest) [.word op.mnemonic]
      (operandText strings a ++ '\n' :: rest) := by
  obtain ⟨c, cs, hmnemonic, hstart, hparts⟩ := exists_mnemonic op
  obtain ⟨d, ds, hnext, hend, hcolon⟩ := operandText_append_newline strings a rest
  have hcut := CutInto.word hstart hparts hend hcolon ds
  rw [← hmnemonic, String.ofList_toList] at hcut
  rwa [operationText, List.append_assoc, hnext]

theorem newline_notMem_of_spellsOperand {call : Call} (h : SpellsOperand op tokens call) :
    .newline ∉ tokens := by
  cases h <;> simp

/-- **The line of an operation is cut into tokens that spell it** as it is read back. -/
theorem exists_cutInto_operationText (hshape : x.2.shape = x.1.shape)
    (hreadable : Readable strings x.2) (rest : List Char) :
    ∃ tokens, CutInto (operationText strings x ++ '\n' :: rest) tokens ('\n' :: rest) ∧
      SpellsLine tokens [callOf strings (rereadOperation x)] ∧ .newline ∉ tokens := by
  obtain ⟨operand, hcut, hoperand⟩ := exists_cutInto_operandText hshape hreadable rest
  refine ⟨.word x.1.mnemonic :: operand, (cutInto_mnemonic _ _ _ _).trans hcut,
    .instruction (spellsMnemonic_mnemonic x.1) hoperand, ?_⟩
  simpa using newline_notMem_of_spellsOperand hoperand

/-! ## All lines -/

theorem Spells.nil : Spells [] [] := ⟨[[]], .cons .blank .nil, rfl⟩

/-- A line before the others. -/
theorem Spells.cons {line : List Token} {calls others : List Call} (hline : SpellsLine line calls)
    (hnewline : .newline ∉ line) (h : Spells tokens others) :
    Spells (line ++ .newline :: tokens) (calls ++ others) := by
  obtain ⟨lines, hlines, rfl⟩ := h
  have hother : ∀ t ∈ line, (t == Token.newline) = false := by
    intro t ht
    rw [beq_eq_false_iff_ne]
    rintro rfl
    exact hnewline ht
  refine ⟨calls :: lines, ?_, rfl⟩
  rw [List.splitOn, List.splitOnP_append_cons_of_forall_mem hother _ (by decide)]
  exact .cons hline hlines

/-- **The lines of operations are cut into tokens that spell them** as they are read back. -/
theorem exists_spells_operationLines (hshape : ∀ x ∈ xs, x.2.shape = x.1.shape)
    (hreadable : ∀ x ∈ xs, Readable strings x.2) :
    ∃ tokens, CutInto (operationLines strings xs) tokens [] ∧
      Spells tokens (xs.map (callOf strings ∘ rereadOperation)) := by
  induction xs with
  | nil => exact ⟨[], .refl [], .nil⟩
  | cons x xs ih =>
    obtain ⟨tokens, hcut, hspells⟩ := ih (fun y hy => hshape y (List.mem_cons_of_mem x hy))
      fun y hy => hreadable y (List.mem_cons_of_mem x hy)
    obtain ⟨line, hline, hspellsLine, hnewline⟩ := exists_cutInto_operationText
      (hshape x List.mem_cons_self) (hreadable x List.mem_cons_self) (operationLines strings xs)
    refine ⟨line ++ .newline :: tokens, ?_, Spells.cons hspellsLine hnewline hspells⟩
    rw [operationLines_cons]
    exact hline.trans ((CutInto.newline _).trans hcut)

/-- **One text that is not readable** keeps the lines from being cut into tokens. -/
theorem lexFrom_operationLines_error (hshape : ∀ x ∈ xs, x.2.shape = x.1.shape)
    (h : ∃ x ∈ xs, ¬Readable strings x.2) (offset : Nat) :
    ∃ e, lexFrom offset (operationLines strings xs) = .error e := by
  induction xs generalizing offset with
  | nil =>
    obtain ⟨x, hx, -⟩ := h
    contradiction
  | cons x xs ih =>
    rw [operationLines_cons]
    by_cases hx : Readable strings x.2
    · obtain ⟨line, hline, -⟩ := exists_cutInto_operationText (hshape x List.mem_cons_self) hx
        (operationLines strings xs)
      obtain ⟨y, hy, hunreadable⟩ := h
      have hrest := ih (fun z hz => hshape z (List.mem_cons_of_mem x hz))
        ⟨y, (List.mem_cons.1 hy).resolve_left (by rintro rfl; exact hunreadable hx), hunreadable⟩
      exact (hline.trans (CutInto.newline _)).lexFrom_error hrest offset
    · exact (cutInto_mnemonic x.1 strings x.2 _).lexFrom_error
        (lexFrom_operandText_error hx _) offset

end Listing
end StackMachine
