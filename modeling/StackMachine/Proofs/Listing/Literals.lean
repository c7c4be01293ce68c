import StackMachine.Listing.Lexer
import StackMachine.Proofs.Text.SingleLine

/-!
# Quoted text as a literal

Text is quoted for a reader of the disassembly, and the literals of a listing have escapes of their
own. The two agree on where the text ends, whatever is quoted, and on every escape but one: a
character that is shown by its number has no escape in a listing. So quoted text is read back
exactly when no character of it is shown by number.
-/

namespace StackMachine

/-! ## Quoted characters -/

namespace Text

/-- A character whose quoted form is its number in braces. -/
def ShownByNumber (c : Char) : Prop := isUnseen c = true ∧ c ∉ ['\x00', '\t', '\n', '\r']

instance (c : Char) : Decidable (ShownByNumber c) :=
  inferInstanceAs (Decidable (_ ∧ _))

/-- The forms of a quoted character: an escape of the listing, the number, or the character. -/
inductive QuotedForm (c : Char) : List Char → Prop
  | escape {d : Char} (hd : Listing.escaped? d = some c) (hnumber : ¬ShownByNumber c) :
    QuotedForm c ['\\', d]
  | number (hnumber : ShownByNumber c) :
    QuotedForm c ('\\' :: 'u' :: '\x7b' :: Nat.toDigits 16 c.toNat ++ ['\x7d'])
  | plain (hnumber : ¬ShownByNumber c) (hquote : c ≠ '"') (hslash : c ≠ '\\')
    (hnewline : c ≠ '\n') : QuotedForm c [c]

theorem quotedForm (c : Char) : QuotedForm c (quoteChar c) := by
  unfold quoteChar
  split
  iterate 6 exact .escape rfl (by decide)
  next h0 htab hnewline hreturn hquote hslash =>
  split
  · next hunseen =>
    refine .number ⟨hunseen, ?_⟩
    simp only [List.mem_cons, List.not_mem_nil, or_false, not_or]
    exact ⟨h0, htab, hnewline, hreturn⟩
  · next hseen => exact .plain (fun h => hseen h.1) hquote hslash hnewline

end Text

namespace Listing

open Text (ShownByNumber quoteChar quotedForm QuotedForm)

/-! ## Where the literal ends -/

theorem LiteralEnd.shift_shift (e : LiteralEnd) (m n : Nat) :
    (e.shift m).shift n = e.shift (n + m) := by
  cases e <;> simp [shift, Nat.add_assoc]

theorem literalEnd_cons {c : Char} (hquote : c ≠ '"') (hslash : c ≠ '\\') (hnewline : c ≠ '\n')
    (rest : List Char) : literalEnd (c :: rest) = (literalEnd rest).shift 1 := by
  rw [literalEnd] <;> simp_all

/-- An escape does not end a literal. -/
theorem literalEnd_escape {d : Char} (hnewline : d ≠ '\n') (rest : List Char) :
    literalEnd ('\\' :: d :: rest) = (literalEnd rest).shift 2 := by
  rw [literalEnd]
  simp_all

/-- Characters that neither end a literal nor begin an escape. -/
theorem literalEnd_append {cs : List Char}
    (hplain : ∀ c ∈ cs, c ≠ '"' ∧ c ≠ '\\' ∧ c ≠ '\n') (rest : List Char) :
    literalEnd (cs ++ rest) = (literalEnd rest).shift cs.length := by
  induction cs with
  | nil => cases h : literalEnd rest <;> simp [LiteralEnd.shift, h]
  | cons c cs ih =>
    obtain ⟨hquote, hslash, hnewline⟩ := hplain c List.mem_cons_self
    rw [List.cons_append, literalEnd_cons hquote hslash hnewline,
      ih fun d hd => hplain d (List.mem_cons_of_mem c hd), LiteralEnd.shift_shift,
      List.length_cons, Nat.add_comm]

theorem ne_newline_of_escaped? {c d : Char} (hd : escaped? d = some c) : d ≠ '\n' := by
  rintro rfl
  contradiction

/-- No quoted character ends a literal. -/
theorem literalEnd_quoteChar (c : Char) (rest : List Char) :
    literalEnd (quoteChar c ++ rest) = (literalEnd rest).shift (quoteChar c).length := by
  have hform := quotedForm c
  generalize quoteChar c = form at hform
  cases hform with
  | escape hd hnumber => exact literalEnd_escape (ne_newline_of_escaped? hd) rest
  | plain hnumber hquote hslash hnewline => exact literalEnd_cons hquote hslash hnewline rest
  | number hnumber =>
    have hdigits (d : Char) (hd : ∀ k, Nat.digitChar k ≠ d) : d ∉ Nat.toDigits 16 c.toNat :=
      Text.notMem_toDigits hd (by decide) _
    have hplain : ∀ d ∈ '\x7b' :: Nat.toDigits 16 c.toNat ++ ['\x7d'],
        d ≠ '"' ∧ d ≠ '\\' ∧ d ≠ '\n' := by
      intro d hd
      have hquote := hdigits '"' fun _ => Nat.digitChar_ne '"' rfl
      have hslash := hdigits '\\' fun _ => Nat.digitChar_ne '\\' rfl
      have hnewline := hdigits '\n' fun _ => Nat.digitChar_ne '\n' rfl
      refine ⟨?_, ?_, ?_⟩ <;> rintro rfl <;> simp_all
    show literalEnd ('\\' :: 'u' :: (('\x7b' :: Nat.toDigits 16 c.toNat ++ ['\x7d']) ++ rest)) = _
    rw [literalEnd_escape (by decide), literalEnd_append hplain, LiteralEnd.shift_shift]
    congr 1
    simp only [List.length_append, List.length_cons, List.length_nil]
    omega

/-- **A literal of quoted text ends at its closing quote**, whatever is quoted. -/
theorem literalEnd_quoted (cs rest : List Char) :
    literalEnd (cs.flatMap quoteChar ++ '"' :: rest) =
      .closed (cs.flatMap quoteChar).length := by
  induction cs with
  | nil => rfl
  | cons c cs ih =>
    rw [List.flatMap_cons, List.append_assoc, literalEnd_quoteChar, ih, List.length_append]
    rfl

/-! ## The text of the literal -/

theorem unescape?_cons {c : Char} (hslash : c ≠ '\\') (rest : List Char) :
    unescape? (c :: rest) = (unescape? rest).map (c :: ·) := by
  rw [unescape?] <;> simp_all

/-- A quoted character is read back unless it is shown by number. -/
theorem unescape?_quoteChar (c : Char) (rest : List Char) :
    unescape? (quoteChar c ++ rest) =
      if ShownByNumber c then none else (unescape? rest).map (c :: ·) := by
  have hform := quotedForm c
  generalize quoteChar c = form at hform
  cases hform with
  | escape hd hnumber =>
    rw [if_neg hnumber]
    show unescape? ('\\' :: _ :: rest) = _
    rw [unescape?, hd]
    cases unescape? rest <;> rfl
  | plain hnumber hquote hslash hnewline =>
    rw [if_neg hnumber]
    exact unescape?_cons hslash rest
  | number hnumber =>
    rw [if_pos hnumber]
    rfl

/-- **Quoted text is read back** exactly when no character of it is shown by number. -/
theorem unescape?_quoted (cs : List Char) :
    unescape? (cs.flatMap quoteChar) = if ∃ c ∈ cs, ShownByNumber c then none else some cs := by
  induction cs with
  | nil => simp [unescape?]
  | cons c cs ih =>
    rw [List.flatMap_cons, unescape?_quoteChar, ih]
    by_cases hc : ShownByNumber c
    · simp [hc]
    · by_cases hcs : ∃ d ∈ cs, ShownByNumber d <;> simp [hc, hcs]

/-- The piece of a literal that ends takes it up to the quote at its end. -/
theorem literalPiece_of_closed {body rest : List Char}
    (h : literalEnd (body ++ '"' :: rest) = .closed body.length) :
    literalPiece (body ++ '"' :: rest) =
      ((unescape? body).elim .unexpected fun s => .token (.text (String.ofList s)),
        body.length + 1) := by
  rw [literalPiece, h]
  dsimp only
  rw [List.take_left]
  cases unescape? body <;> rfl

/-- The literal that quoted text makes. -/
theorem literalPiece_quoted (cs rest : List Char) :
    literalPiece (cs.flatMap quoteChar ++ '"' :: rest) =
      (if ∃ c ∈ cs, ShownByNumber c then .unexpected else .token (.text (String.ofList cs)),
        (cs.flatMap quoteChar).length + 1) := by
  rw [literalPiece_of_closed (literalEnd_quoted cs rest), unescape?_quoted]
  by_cases hnumber : ∃ c ∈ cs, ShownByNumber c
  · simp only [if_pos hnumber, Option.elim_none]
  · simp only [if_neg hnumber, Option.elim_some]

end Listing
end StackMachine
