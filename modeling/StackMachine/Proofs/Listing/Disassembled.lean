import StackMachine.Disassembly
import StackMachine.Proofs.Listing.Spelling

/-!
# Disassembly read back

A disassembly is a listing once its columns are taken away: the offset at the beginning of a line,
and the place in the pool before a text (`withoutColumns`). What is left has a line for each
instruction, and assembling it gives the program again, with two exceptions. A character of a text
that is shown by number has no escape in a listing, so the listing is not accepted; and numbers that
share a text are read as one of them, so the sign of zero is lost, and which NaN it was
(`disassembly_read_back_iff`).
-/

namespace StackMachine

/-! ## From a disassembly to a listing -/

/-- A line of a disassembly without its offset and the two spaces after it. -/
def withoutOffset (line : List Char) : List Char := (line.dropWhile (· ≠ ' ')).drop 2

/-- A statement without the place in the pool that stands before a text. -/
def withoutIndex (statement : List Char) : List Char :=
  match statement.dropWhile (· ≠ ' ') with
  | ' ' :: '#' :: operand => statement.takeWhile (· ≠ ' ') ++ operand.dropWhile (· ≠ ' ')
  | _ => statement

/-- The listing that a disassembly is without its columns. -/
def withoutColumns (text : String) : String :=
  String.ofList <| ['\n'].intercalate <|
    (text.toList.splitOn '\n').map fun line => withoutIndex (withoutOffset line)

/-! ## Columns of a line -/

section

variable {name operand : List Char}

/-- A name ends at the first space. -/
theorem cut_name (hname : ∀ c ∈ name, c ≠ ' ') (operand : List Char) :
    (name ++ ' ' :: operand).takeWhile (· ≠ ' ') = name ∧
      (name ++ ' ' :: operand).dropWhile (· ≠ ' ') = ' ' :: operand :=
  takeWhile_append_cons (fun c hc => decide_eq_true (hname c hc)) (by decide) operand

/-- A name is kept. -/
theorem withoutIndex_name (hname : ∀ c ∈ name, c ≠ ' ') : withoutIndex name = name := by
  have hdrop : name.dropWhile (· ≠ ' ') = [] :=
    List.dropWhile_eq_nil_iff.2 fun c hc => decide_eq_true (hname c hc)
  rw [withoutIndex, hdrop]

/-- An operand that does not begin with the place of a text is kept. -/
theorem withoutIndex_operand (hname : ∀ c ∈ name, c ≠ ' ')
    (hoperand : ∀ rest, operand ≠ '#' :: rest) :
    withoutIndex (name ++ ' ' :: operand) = name ++ ' ' :: operand := by
  rw [withoutIndex, (cut_name hname operand).2]
  split
  · next rest h => exact absurd (List.cons.inj h).2 (hoperand rest)
  · rfl

/-- The place of a text is taken away. -/
theorem withoutIndex_index {digits : List Char} (hname : ∀ c ∈ name, c ≠ ' ')
    (hdigits : ∀ c ∈ digits, c ≠ ' ') :
    withoutIndex (name ++ ' ' :: '#' :: (digits ++ ' ' :: operand)) = name ++ ' ' :: operand := by
  obtain ⟨htake, hdrop⟩ := cut_name hname ('#' :: (digits ++ ' ' :: operand))
  rw [withoutIndex, hdrop, htake]
  exact congrArg _ (cut_name hdigits operand).2

end

open Listing (operandText operationText operationLines)

theorem ne_space_of_mem_mnemonic {op : Opcode} {c : Char} (hc : c ∈ op.mnemonic.toList) :
    c ≠ ' ' := by
  obtain ⟨d, ds, hmnemonic, hstart, hparts⟩ := Listing.exists_mnemonic op
  rw [hmnemonic] at hc
  rintro rfl
  rcases List.mem_cons.1 hc with rfl | hmem
  · exact absurd hstart (by decide)
  · exact absurd (hparts ' ' hmem) (by decide)

theorem ne_space_of_mem_toDigits {base n : Nat} (hbase : 1 < base) {c : Char}
    (hc : c ∈ Nat.toDigits base n) : c ≠ ' ' := by
  rintro rfl
  exact Text.notMem_toDigits (fun _ => Nat.digitChar_ne ' ' rfl) hbase n hc

/-- No number is printed with the mark of a place first. -/
theorem Number.Spelled.toList_ne {s : String} {x : Number} (h : Number.Spelled s x)
    (rest : List Char) : s.toList ≠ '#' :: rest := by
  cases h with
  | numeral h =>
    rw [String.toList_ofList]
    exact h.ne_cons (by decide) rest
  | negativeNumeral h =>
    rw [String.toList_ofList]
    exact fun h => absurd (List.cons.inj h).1 (by decide)
  | _ => exact fun h => absurd (List.cons.inj h).1 (by decide)

/-- The characters of an operand after the mnemonic. -/
def Argument.shown (p : Program) (a : Argument) : List Char :=
  match a.text? p with
  | some operand => ' ' :: operand.toList
  | Option.none => []

/-- The offset that a line begins with, before the two spaces after it. -/
theorem cut_text (i : Instruction) (p : Program) :
    (i.text p).toList.takeWhile (· ≠ ' ') = Text.padDigits 4 (Nat.toDigits 16 i.offset) ∧
      (i.text p).toList.dropWhile (· ≠ ' ') =
        ' ' :: ' ' :: (i.opcode.mnemonic.toList ++ i.argument.shown p) := by
  have hhex : ∀ c ∈ Text.padDigits 4 (Nat.toDigits 16 i.offset), c ≠ ' ' := by
    intro c hc
    rcases List.mem_append.1 hc with hzero | hdigit
    · rw [List.eq_of_mem_replicate hzero]
      decide
    · exact ne_space_of_mem_toDigits (by decide) hdigit
  have htext : (i.text p).toList = Text.padDigits 4 (Nat.toDigits 16 i.offset) ++
      ' ' :: ' ' :: (i.opcode.mnemonic.toList ++ i.argument.shown p) := by
    rw [Instruction.text, Argument.shown]
    cases i.argument.text? p <;> simp [Text.hex]
  rw [htext]
  exact cut_name hhex _

/-- **The statement of a line** is what is left without the offset. -/
theorem withoutOffset_text (i : Instruction) (p : Program) :
    withoutOffset (i.text p).toList = i.opcode.mnemonic.toList ++ i.argument.shown p := by
  rw [withoutOffset, (cut_text i p).2]
  rfl

/-- **A line without its columns** is the line of its operation in a listing. -/
theorem withoutIndex_shown {p : Program} {op : Opcode} {a : Argument}
    (hentry : ∀ index, a = .string index → ∃ e, p.strings[index.toNat]? = some e) :
    withoutIndex (op.mnemonic.toList ++ a.shown p) = operationText p.strings (op, a) := by
  have hname : ∀ c ∈ op.mnemonic.toList, c ≠ ' ' := fun _ => ne_space_of_mem_mnemonic
  have hdecimal (n : Nat) : withoutIndex (op.mnemonic.toList ++ ' ' :: (Text.decimal n).toList) =
      op.mnemonic.toList ++ ' ' :: Nat.toDigits 10 n := by
    have hspelled : Number.Spelled (Text.decimal n) _ := .numeral (Number.plainNumeral_toDigits n)
    rw [withoutIndex_operand hname hspelled.toList_ne, Text.decimal, String.toList_ofList]
  cases a with
  | none =>
    exact (congrArg withoutIndex (List.append_nil _)).trans
      ((withoutIndex_name hname).trans (List.append_nil _).symm)
  | u8 n => exact hdecimal n.toNat
  | u16 n => exact hdecimal n.toNat
  | u32 n => exact hdecimal n.toNat
  | u64 n => exact hdecimal n.toNat
  | f64 x => exact withoutIndex_operand hname x.spelled_text.toList_ne
  | string index =>
    obtain ⟨e, he⟩ := hentry index rfl
    have hshown : (Argument.string index).shown p =
        ' ' :: '#' :: (Nat.toDigits 10 index.toNat ++ ' ' :: (Text.quoted e.text).toList) := by
      rw [Argument.shown, Argument.text?, he]
      simp [Text.decimal]
    rw [hshown, withoutIndex_index hname fun _ => ne_space_of_mem_toDigits (by decide),
      operationText, operandText, Listing.textAt_eq he]

/-! ## A disassembly without its columns -/

theorem intercalate_newline (lines : List (List Char)) :
    ['\n'].intercalate (lines ++ [[]]) = lines.flatMap (· ++ ['\n']) := by
  induction lines with
  | nil => rfl
  | cons line lines ih =>
    obtain ⟨next, rest, hnext⟩ := List.exists_cons_of_ne_nil
      (List.append_ne_nil_of_right_ne_nil lines (List.cons_ne_nil [] []))
    rw [List.flatMap_cons, ← ih, List.cons_append, hnext, List.intercalate_cons_cons]

/-- The lines of a text that ends each of them. -/
theorem splitOn_lines {lines : List (List Char)} (hlines : ∀ line ∈ lines, '\n' ∉ line) :
    (lines.flatMap (· ++ ['\n'])).splitOn '\n' = lines ++ [[]] := by
  rw [← intercalate_newline]
  refine List.splitOn_intercalate '\n' (fun line hline => ?_)
    (List.append_ne_nil_of_right_ne_nil lines (List.cons_ne_nil [] []))
  rcases List.mem_append.1 hline with hmem | hlast
  · exact hlines line hmem
  · rw [List.mem_singleton.1 hlast]
    exact List.not_mem_nil

/-- The lines of instructions that are shown one after another. -/
theorem splitOn_texts (is : List Instruction) (p : Program) :
    (String.join (is.map fun i => i.text p ++ "\n")).toList.splitOn '\n' =
      (is.map fun i => (i.text p).toList) ++ [[]] := by
  have htext : (String.join (is.map fun i => i.text p ++ "\n")).toList =
      (is.map fun i => (i.text p).toList).flatMap (· ++ ['\n']) := by
    rw [String.toList_join, List.flatMap_map, List.flatMap_map]
    exact List.flatMap_congr fun i _ => String.toList_append
  have hlines : ∀ line ∈ is.map fun i => (i.text p).toList, '\n' ∉ line := by
    intro line hline
    obtain ⟨i, -, rfl⟩ := List.mem_map.1 hline
    exact i.singleLine_text p
  rw [htext, splitOn_lines hlines]

namespace Program.MadeOf

variable {p : Program} {xs : List (Opcode × Argument)}

/-- The disassembly of a program has a line for each operation. -/
theorem disassemble_eq (h : p.MadeOf xs) :
    p.disassemble = .ok (String.join ((placed 0 xs).map fun i => i.text p ++ "\n")) := by
  rw [Program.disassemble, decodeAll_of_instructions h.instructions_eq]
  rfl

/-- **A disassembly without its columns** is the lines of the operations. -/
theorem withoutColumns_eq (h : p.MadeOf xs) :
    withoutColumns (String.join ((placed 0 xs).map fun i => i.text p ++ "\n")) =
      String.ofList (operationLines p.strings xs) := by
  have hstatement : ∀ i ∈ placed 0 xs, withoutIndex (withoutOffset (i.text p).toList) =
      operationText p.strings (i.opcode, i.argument) := by
    intro i hi
    have hmem := mem_of_mem_placed hi
    rw [withoutOffset_text]
    exact withoutIndex_shown fun index harg => h.exists_entry (harg ▸ hmem)
  have hlast : [[]].map (fun line => withoutIndex (withoutOffset line)) = [[]] := rfl
  rw [withoutColumns, splitOn_texts, List.map_append, hlast, intercalate_newline, List.map_map,
    List.flatMap_map]
  refine congrArg String.ofList ?_
  have hoperations : operationLines p.strings xs =
      (placed 0 xs).flatMap fun i => operationText p.strings (i.opcode, i.argument) ++ ['\n'] := by
    conv_lhs => rw [← operations_placed 0 xs, operationLines, List.flatMap_map]
  rw [hoperations]
  refine List.flatMap_congr fun i hi => ?_
  rw [Function.comp_apply, hstatement i hi]

/-- The program whose operations are read back from their text. -/
theorem reread (h : p.MadeOf xs) :
    MadeOf { p with code := ((xs.map rereadOperation).flatMap operationBytes).toArray }
      (xs.map rereadOperation) where
  shaped x hx := by
    obtain ⟨y, hy, rfl⟩ := List.mem_map.1 hx
    exact (Argument.shape_reread y.2).trans (h.shaped y hy)
  code := rfl
  indices := by
    rw [textIndices, List.filterMap_map, ← h.indices, textIndices]
    exact List.filterMap_congr fun x _ => Argument.textIndex?_reread x.2
  genuine := h.genuine

/-- **The lines of operations are assembled** to what is read back. -/
theorem assemble_operationLines (h : p.MadeOf xs)
    (hreadable : ∀ x ∈ xs, Listing.Readable p.strings x.2) :
    Listing.assemble (String.ofList (operationLines p.strings xs)) =
      .ok { p with code := ((xs.map rereadOperation).flatMap operationBytes).toArray } := by
  obtain ⟨tokens, hcut, hspells⟩ := Listing.exists_spells_operationLines h.shaped hreadable
  obtain ⟨lexemes, hlex, htokens⟩ := hcut.lexFrom_eq_ok 0
  rw [← String.toList_ofList (l := operationLines p.strings xs)] at hlex
  refine (Listing.assemble_eq_ok_iff hlex).2 (Listing.assembleLexemes_of_spells h.reread ?_)
  rw [htokens, List.map_map]
  exact hspells

/-- **One text that is not readable** keeps the lines from being assembled. -/
theorem assemble_operationLines_error (h : p.MadeOf xs)
    (hreadable : ∃ x ∈ xs, ¬Listing.Readable p.strings x.2) :
    ∃ e, Listing.assemble (String.ofList (operationLines p.strings xs)) = .error e := by
  obtain ⟨e, he⟩ := Listing.lexFrom_operationLines_error h.shaped hreadable 0
  rw [Listing.assemble, Listing.lex, String.toList_ofList, he]
  exact ⟨_, rfl⟩

/-! ## What is read back -/

/-- All operands are readable when no text of the pool has a character that is shown by number. -/
theorem readable_iff (h : p.MadeOf xs) :
    (∀ x ∈ xs, Listing.Readable p.strings x.2) ↔
      ∀ e ∈ p.strings, ∀ c ∈ e.text.toList, ¬Text.ShownByNumber c := by
  constructor
  · intro hreadable e he
    obtain ⟨op, index, hx, hindex⟩ := h.exists_operand he
    rw [← Listing.textAt_eq hindex]
    exact hreadable _ hx index rfl
  · rintro htexts ⟨op, a⟩ hx index rfl
    obtain ⟨e, he⟩ := h.exists_entry hx
    rw [Listing.textAt_eq he]
    exact htexts e (Array.mem_of_getElem? he)

theorem ok_mem_instructions_iff (h : p.MadeOf xs) {i : Instruction} :
    .ok i ∈ instructions p.code ↔ i ∈ placed 0 xs := by
  rw [h.instructions_eq, List.mem_map_of_injective fun _ _ => Except.ok.inj]

/-- The operations are read back as they are when their numbers are. -/
theorem map_rereadOperation_eq_iff (h : p.MadeOf xs) :
    xs.map rereadOperation = xs ↔
      ∀ i x, .ok i ∈ instructions p.code → i.argument = .f64 x → x.reread = x := by
  have hmap : xs.map rereadOperation = xs.map id ↔ ∀ y ∈ xs, rereadOperation y = y :=
    List.map_inj_left
  rw [List.map_id] at hmap
  rw [hmap]
  constructor
  · intro hsame i x hi hx
    have hmem := mem_of_mem_placed (h.ok_mem_instructions_iff.1 hi)
    rw [hx] at hmem
    exact Argument.f64.inj (Prod.mk.inj (hsame _ hmem)).2
  · intro hnumbers y hy
    rw [← operations_placed 0 xs] at hy
    obtain ⟨i, hi, rfl⟩ := List.mem_map.1 hy
    refine congrArg (i.opcode, ·) ?_
    cases harg : i.argument with
    | f64 x => exact congrArg _ (hnumbers i x (h.ok_mem_instructions_iff.2 hi) harg)
    | _ => rfl

end Program.MadeOf

/-- **What is left of a disassembly is a listing** of the same program, unless a text or a number
cannot be read back. For every listing that is assembled, its program has a disassembly, and without
its columns

* the disassembly is accepted as a listing exactly when no text of the pool has a character that is
  shown by number;
* it is assembled to the program again, the same code and the same pool, exactly when moreover no
  number in the code is negative zero or a NaN other than the one that is read. -/
theorem disassembly_read_back_iff {source : String} {p : Program}
    (h : Listing.assemble source = .ok p) :
    ∃ text, p.disassemble = .ok text ∧
      ((∃ q, Listing.assemble (withoutColumns text) = .ok q) ↔
        ∀ e ∈ p.strings, ∀ c ∈ e.text.toList, ¬Text.ShownByNumber c) ∧
      (Listing.assemble (withoutColumns text) = .ok p ↔
        (∀ e ∈ p.strings, ∀ c ∈ e.text.toList, ¬Text.ShownByNumber c) ∧
        ∀ i x, .ok i ∈ instructions p.code → i.argument = .f64 x →
          x ≠ Number.zero.neg ∧ (x.isNaN = true → x = Number.nan)) := by
  obtain ⟨xs, hp⟩ := Listing.exists_madeOf_of_assemble h
  refine ⟨_, hp.disassemble_eq, ?_⟩
  rw [hp.withoutColumns_eq, ← hp.readable_iff]
  simp only [← Number.reread_eq_self_iff]
  rw [← hp.map_rereadOperation_eq_iff]
  by_cases hreadable : ∀ x ∈ xs, Listing.Readable p.strings x.2
  · have hassembled := hp.assemble_operationLines hreadable
    refine ⟨⟨fun _ => hreadable, fun _ => ⟨_, hassembled⟩⟩, ?_⟩
    rw [hassembled]
    constructor
    · intro hsame
      have hmade := hp.reread
      rw [Except.ok.inj hsame] at hmade
      exact ⟨hreadable, hmade.unique hp⟩
    · rintro ⟨-, hsame⟩
      rw [hsame, ← hp.code]
  · obtain ⟨e, he⟩ := hp.assemble_operationLines_error (by simpa using hreadable)
    rw [he]
    exact ⟨⟨nofun, fun hall => absurd hall hreadable⟩, nofun, fun hall => absurd hall.1 hreadable⟩

/-- A label, a decimal fraction and a text with a quote are read back. A delete character is shown
by number and then not accepted, and negative zero is accepted but becomes zero. -/
theorem delete_and_negative_zero_not_read_back :
    (∃ p text, Listing.assemble "a: PNUM 2.5\nPSTR \"\\\"\"\nJMP a" = .ok p ∧
      p.disassemble = .ok text ∧ Listing.assemble (withoutColumns text) = .ok p) ∧
    (∃ p text, Listing.assemble "PSTR \"\x7f\"" = .ok p ∧ p.disassemble = .ok text ∧
      ¬∃ q, Listing.assemble (withoutColumns text) = .ok q) ∧
    ∃ p text q, Listing.assemble "PNUM -0.0" = .ok p ∧ p.disassemble = .ok text ∧
      Listing.assemble (withoutColumns text) = .ok q ∧ p ≠ q := by
  have hlabel : Listing.assemble "a: PNUM 2.5\nPSTR \"\\\"\"\nJMP a" = .ok {
      code := #[4, 0, 0, 0, 0, 0, 0, 4, 64, 5, 0, 0, 0, 0, 32, 0, 0, 0, 0, 0, 0, 0, 0]
      strings := #[.ofText "\""] } := by
    decide +kernel
  have hdelete : Listing.assemble "PSTR \"\x7f\"" =
      .ok { code := #[5, 0, 0, 0, 0], strings := #[.ofText "\x7f"] } := by
    decide +kernel
  have hzero : Listing.assemble "PNUM -0.0" = .ok { code := #[4, 0, 0, 0, 0, 0, 0, 0, 128] } := by
    decide +kernel
  refine ⟨?_, ?_, ?_⟩
  · obtain ⟨text, htext, -, hsame⟩ := disassembly_read_back_iff hlabel
    have hquote : ¬Text.ShownByNumber '"' := by decide
    refine ⟨_, text, hlabel, htext, hsame.2 ⟨by simp [PoolEntry.ofText, hquote], ?_⟩⟩
    intro i x hi hx
    have hinstructions :
        instructions #[4, 0, 0, 0, 0, 0, 0, 4, 64, 5, 0, 0, 0, 0, 32, 0, 0, 0, 0, 0, 0, 0, 0] =
          [.ok ⟨0, .pushNumber, .f64 ⟨0x4004000000000000⟩⟩, .ok ⟨9, .pushString, .string 0⟩,
            .ok ⟨14, .jump, .u64 0⟩] := by
      decide +kernel
    rw [hinstructions] at hi
    simp only [List.mem_cons, List.not_mem_nil, or_false, Except.ok.injEq] at hi
    rcases hi with rfl | rfl | rfl
    · obtain rfl := Argument.f64.inj hx
      decide
    · contradiction
    · contradiction
  · obtain ⟨text, htext, haccepted, -⟩ := disassembly_read_back_iff hdelete
    refine ⟨_, text, hdelete, htext, fun h => ?_⟩
    exact haccepted.1 h (.ofText "\x7f") (by simp) '\x7f' (by decide) (by decide)
  · obtain ⟨text, htext, haccepted, hsame⟩ := disassembly_read_back_iff hzero
    obtain ⟨q, hq⟩ := haccepted.2 (by simp)
    refine ⟨_, text, q, hzero, htext, hq, ?_⟩
    rintro rfl
    have hfirst : .ok ⟨0, .pushNumber, .f64 Number.zero.neg⟩ ∈
        instructions #[4, 0, 0, 0, 0, 0, 0, 0, 128] := by
      decide +kernel
    exact ((hsame.1 hq).2 _ _ hfirst rfl).1 rfl

end StackMachine
