import Mathlib
import StackMachine.Machine.Run

/-!
# Texts of one line

Whatever strings a program holds, no newline gets into the text of an instruction or into the line
of the trace that shows the stack: numerals and names have none, and strings stand there between
quotes, where a newline is spelled (`singleLine_quoted`).
-/

namespace StackMachine

/-- A text without a newline. -/
def Text.SingleLine (s : String) : Prop := '\n' ∉ s.toList

instance (s : String) : Decidable (Text.SingleLine s) :=
  inferInstanceAs (Decidable ('\n' ∉ s.toList))

namespace Text

/-! ## Texts put together -/

theorem SingleLine.append {s t : String} (hs : SingleLine s) (ht : SingleLine t) :
    SingleLine (s ++ t) := by
  rw [SingleLine, String.toList_append, List.mem_append]
  exact not_or.2 ⟨hs, ht⟩

theorem singleLine_ofList_iff {cs : List Char} : SingleLine (String.ofList cs) ↔ '\n' ∉ cs := by
  rw [SingleLine, String.toList_ofList]

theorem SingleLine.intercalate {separator : String} {parts : List String}
    (hseparator : SingleLine separator) (hparts : ∀ s ∈ parts, SingleLine s) :
    SingleLine (separator.intercalate parts) := by
  induction parts with
  | nil => exact List.not_mem_nil
  | cons s parts ih =>
    have hs := hparts s List.mem_cons_self
    cases parts with
    | nil => exact hs
    | cons t parts =>
      rw [String.intercalate_cons_cons]
      exact (hs.append hseparator).append (ih fun u hu => hparts u (List.mem_cons_of_mem s hu))

/-! ## Numerals -/

/-- What is no digit is not in a numeral. -/
theorem notMem_toDigits {c : Char} (hc : ∀ k, Nat.digitChar k ≠ c) {base : Nat} (hbase : 1 < base)
    (n : Nat) : c ∉ Nat.toDigits base n := by
  induction n using Nat.strongRecOn with
  | ind n ih =>
    have hdigit : ∀ k, c ∉ [Nat.digitChar k] := fun k h => hc k (List.mem_singleton.1 h).symm
    rw [Nat.toDigits_eq_if hbase]
    split
    · exact hdigit n
    · next hn =>
      rw [List.mem_append]
      exact not_or.2 ⟨ih _ (Nat.div_lt_self (by omega) hbase), hdigit _⟩

/-- No digit of a numeral is a newline. -/
theorem newline_notMem_toDigits {base : Nat} (hbase : 1 < base) (n : Nat) :
    '\n' ∉ Nat.toDigits base n :=
  notMem_toDigits (fun _ => Nat.digitChar_ne '\n' rfl) hbase n

theorem singleLine_decimal (n : Nat) : SingleLine (decimal n) :=
  singleLine_ofList_iff.2 (newline_notMem_toDigits (by decide) n)

theorem singleLine_hex (width n : Nat) : SingleLine (hex width n) := by
  refine singleLine_ofList_iff.2 fun h => ?_
  rcases List.mem_append.1 h with hzero | hdigit
  · exact absurd (List.eq_of_mem_replicate hzero) (by decide)
  · exact newline_notMem_toDigits (by decide) n hdigit

/-! ## Quoted text -/

/-- A newline is spelled between quotes, and no other character is spelled with one. -/
theorem newline_notMem_quoteChar (c : Char) : '\n' ∉ quoteChar c := by
  unfold quoteChar
  split
  iterate 6 decide
  next hnewline _ _ _ =>
  split
  · simp [newline_notMem_toDigits]
  · simpa using fun h => hnewline h.symm

/-- **Quoted text is one line** whatever is quoted. -/
theorem singleLine_quoted (s : String) : SingleLine (quoted s) := by
  refine singleLine_ofList_iff.2 ?_
  simp [newline_notMem_quoteChar]

end Text

open Text (SingleLine)

/-! ## Values -/

/-- A decimal that is laid out without an exponent. -/
theorem Decimal.newline_notMem_positionalText (d : Decimal) (pointZero : Bool) :
    '\n' ∉ d.positionalText pointZero := by
  have hdigits := Text.newline_notMem_toDigits (by decide : 1 < 10) d.digits
  have hpadded : ∀ k, '\n' ∉ List.replicate k '0' ++ Nat.toDigits 10 d.digits := by
    simp [hdigits]
  unfold positionalText
  dsimp only
  split
  · split <;> simp [hdigits]
  · intro h
    rcases List.mem_append.1 h with hwhole | hplaces
    · exact hpadded _ (List.mem_of_mem_take hwhole)
    · rcases List.mem_cons.1 hplaces with hpoint | hplaces
      · exact absurd hpoint (by decide)
      · exact hpadded _ (List.mem_of_mem_drop hplaces)

theorem Number.singleLine_text (x : Number) : SingleLine x.text := by
  have hlayout : SingleLine (x.layoutText valueLayout) := by
    have hdecimal := (x.shortestDecimal valueLayout.tie).newline_notMem_positionalText false
    refine Text.singleLine_ofList_iff.2 ?_
    change '\n' ∉ if x.isNegative then '-' :: Decimal.positionalText _ false else
      Decimal.positionalText _ false
    split <;> simp [hdecimal]
  unfold text
  split
  · decide
  · split
    · split <;> decide
    · split
      · split
        · refine Text.singleLine_ofList_iff.2 ?_
          split <;> simp [Text.newline_notMem_toDigits]
        · exact hlayout
      · exact hlayout

/-- Inside a container every scalar is one line, strings among them. -/
theorem Scalar.singleLine_quotedText (s : Scalar) : SingleLine s.quotedText := by
  cases s with
  | nil => decide
  | bool b => cases b <;> decide
  | number x => exact x.singleLine_text
  | string s => exact Text.singleLine_quoted s.text
  | function f =>
    have haddress := Text.singleLine_decimal f.address.toNat
    have harity := Text.singleLine_decimal f.arity.toNat
    exact ((((by decide : SingleLine "<fn @").append haddress).append (by decide)).append
      harity).append (by decide)

theorem Ref.singleLine_bracketed (r : Ref) {inner : String} (h : SingleLine inner) :
    SingleLine (r.bracketed inner) := by
  cases r with
  | array => exact ((by decide : SingleLine "[").append h).append (by decide)
  | table => exact ((by decide : SingleLine "\x7b").append h).append (by decide)

namespace Heap

/-- The keys that a container shows are one line each. -/
theorem singleLine_of_mem_shown {h : Heap} {r : Ref} {part : String × Value}
    (hpart : part ∈ h.shown r) : SingleLine part.1 := by
  cases r with
  | array id =>
    obtain ⟨v, -, rfl⟩ := List.mem_map.1 hpart
    exact List.not_mem_nil
  | table id =>
    obtain ⟨e, -, rfl⟩ := List.mem_map.1 hpart
    exact e.key.singleLine_quotedText.append (by decide)

/-- **A value inside a container is one line**, however deep it is and whatever it holds. -/
theorem singleLine_renderIn (h : Heap) {opened : List Ref} (hopened : opened ≠ []) (v : Value) :
    SingleLine (h.renderIn opened v) := by
  fun_induction h.renderIn opened v with
  | case1 opened s hempty => exact absurd (List.isEmpty_iff.1 hempty) hopened
  | case2 opened s => exact s.singleLine_quotedText
  | case3 opened r hr => exact r.singleLine_bracketed (by decide)
  | case4 opened r hr ih =>
    refine r.singleLine_bracketed (SingleLine.intercalate (by decide) fun text htext => ?_)
    obtain ⟨⟨⟨key, part⟩, hpart⟩, -, rfl⟩ := List.mem_map.1 htext
    have hkey : SingleLine key := singleLine_of_mem_shown hpart
    exact hkey.append (ih key part hpart (List.cons_ne_nil r opened))

end Heap

/-! ## Lines of the trace -/

/-- The line that shows the operand stack. -/
theorem Machine.singleLine_stackLine (m : Machine) : SingleLine m.stackLine := by
  refine SingleLine.append (by decide) (Ref.singleLine_bracketed _ ?_)
  refine SingleLine.intercalate (by decide) fun text htext => ?_
  obtain ⟨v, -, rfl⟩ := List.mem_map.1 htext
  exact m.heap.singleLine_renderIn (List.cons_ne_nil _ _) v

/-- An operand is one line, also where it shows a text of the pool. -/
theorem Argument.singleLine_of_text? {a : Argument} {p : Program} {operand : String}
    (h : a.text? p = some operand) : SingleLine operand := by
  cases a with
  | none => contradiction
  | f64 x =>
    obtain rfl := Option.some.inj h
    exact x.singleLine_text
  | string index =>
    have hindex := (by decide : SingleLine "#").append (Text.singleLine_decimal index.toNat)
    unfold text? at h
    dsimp only at h
    split at h
    · next e _ =>
      obtain rfl := Option.some.inj h
      exact (hindex.append (by decide)).append (Text.singleLine_quoted e.text)
    · obtain rfl := Option.some.inj h
      exact hindex.append (by decide)
  | u8 n | u16 n | u32 n | u64 n =>
    obtain rfl := Option.some.inj h
    exact Text.singleLine_decimal _

/-- The line that shows an instruction. -/
theorem Instruction.singleLine_text (i : Instruction) (p : Program) : SingleLine (i.text p) := by
  have hmnemonic : SingleLine i.opcode.mnemonic := by
    cases i.opcode <;> decide
  have hplace := (Text.singleLine_hex 4 i.offset).append (by decide : SingleLine "  ")
  refine (hplace.append hmnemonic).append ?_
  split
  · next operand hoperand =>
    exact (by decide : SingleLine " ").append (Argument.singleLine_of_text? hoperand)
  · decide

end StackMachine
