import StackMachine.Proofs.Listing.Literals
import StackMachine.Proofs.Prelude

/-!
# Texts read back

What was written can be told from the text alone: the number from its hexadecimal digits, the text
from its quoted form, and the parts of a list from their texts between separators. A part is read up
to where it ends, and what stands after it must not matter, so this is said of texts that go on
(`Tells`): of two lists that are written alike, each part of the one tells of its partner in the
other (`tells_list`).
-/

namespace StackMachine

/-! ## Hexadecimal numerals -/

namespace Text

/-- The number that hexadecimal digits spell. -/
def hexValue (digits : List Char) : Nat :=
  digits.foldl (fun n c => 16 * n + "0123456789abcdef".toList.idxOf c) 0

theorem hexValue_append_digit (digits : List Char) {k : Nat} (hk : k < 16) :
    hexValue (digits ++ [Nat.digitChar k]) = 16 * hexValue digits + k := by
  have hdigit : ∀ k < 16, "0123456789abcdef".toList.idxOf (Nat.digitChar k) = k := by decide
  rw [hexValue, List.foldl_append, List.foldl_cons, List.foldl_nil, hdigit k hk, hexValue]

theorem hexValue_toDigits (n : Nat) : hexValue (Nat.toDigits 16 n) = n := by
  induction n using Nat.strongRecOn with
  | ind n ih =>
    rw [Nat.toDigits_eq_if (by decide)]
    split
    · next hn => simpa [hexValue] using hexValue_append_digit [] hn
    · next hn =>
      rw [hexValue_append_digit _ (Nat.mod_lt n (by decide)), ih _ (by omega)]
      exact Nat.div_add_mod n 16

/-- Zeros before a numeral do not change what it spells. -/
theorem hexValue_zeros (k : Nat) (digits : List Char) :
    hexValue (List.replicate k '0' ++ digits) = hexValue digits := by
  induction k with
  | zero => rfl
  | succ k ih =>
    rw [List.replicate_succ, List.cons_append, hexValue, List.foldl_cons]
    exact ih

/-- **A numeral is read back**, however wide it is written. -/
theorem hexValue_padDigits (width n : Nat) :
    hexValue (padDigits width (Nat.toDigits 16 n)) = n := by
  rw [padDigits, hexValue_zeros, hexValue_toDigits]

/-! ## Texts that go on -/

/-- The characters after a part of a list, and after a key. -/
def closers : List Char := [',', ':', ']', '\x7d']

/-- What may stand after a part: nothing, or a text that begins with a closer. -/
def Ended (rest : List Char) : Prop := ∀ c ∈ rest.head?, c ∈ closers

/-- A text that has no closer. -/
def NoCloser (cs : List Char) : Prop := ∀ c ∈ cs, c ∉ closers

instance (cs : List Char) : Decidable (NoCloser cs) := List.decidableBAll (· ∉ closers) cs

theorem ended_nil : Ended [] := nofun

theorem ended_cons_iff {c : Char} {rest : List Char} : Ended (c :: rest) ↔ c ∈ closers := by
  simp [Ended]

/-- Two texts tell a fact: where both are ended and read the same, the fact holds and both are ended
in the same way. -/
def Tells (cs ds : List Char) (P : Prop) : Prop :=
  ∀ ⦃rest rest' : List Char⦄, Ended rest → Ended rest' → cs ++ rest = ds ++ rest' →
    P ∧ rest = rest'

theorem Tells.imp {cs ds : List Char} {P Q : Prop} (h : Tells cs ds P) (hPQ : P → Q) :
    Tells cs ds Q :=
  fun _ _ hrest hrest' heq => (h hrest hrest' heq).imp_left hPQ

/-- Texts that begin differently are not the same, and tell anything. -/
theorem tells_of_ne {c d : Char} (hcd : c ≠ d) (cs ds : List Char) (P : Prop) :
    Tells (c :: cs) (d :: ds) P :=
  fun _ _ _ _ h => absurd (List.cons.inj h).1 hcd

/-- Texts without a closer end at the first one. -/
theorem tells_of_noCloser {cs ds : List Char} {P : Prop} (hcs : NoCloser cs)
    (hds : NoCloser ds) (hP : cs = ds → P) : Tells cs ds P := by
  intro rest rest' hrest hrest' h
  induction cs generalizing ds with
  | nil =>
    cases ds with
    | nil => exact ⟨hP rfl, h⟩
    | cons d ds =>
      rw [List.nil_append] at h
      rw [h, List.cons_append, ended_cons_iff] at hrest
      exact absurd hrest (hds d List.mem_cons_self)
  | cons c cs ih =>
    cases ds with
    | nil =>
      rw [List.nil_append] at h
      rw [← h, List.cons_append, ended_cons_iff] at hrest'
      exact absurd hrest' (hcs c List.mem_cons_self)
    | cons d ds =>
      obtain ⟨rfl, htail⟩ := List.cons.inj h
      exact ih (fun e he => hcs e (List.mem_cons_of_mem c he))
        (fun e he => hds e (List.mem_cons_of_mem c he)) (fun heq => hP (heq ▸ rfl)) htail

/-- Hexadecimal digits tell the number. -/
theorem tells_toDigits (m n : Nat) : Tells (Nat.toDigits 16 m) (Nat.toDigits 16 n) (m = n) := by
  have hdigits (n : Nat) : NoCloser (Nat.toDigits 16 n) := by
    intro c hc
    simp only [closers, List.mem_cons, List.not_mem_nil, or_false, not_or]
    refine ⟨?_, ?_, ?_, ?_⟩ <;> rintro rfl <;>
      exact notMem_toDigits (fun _ => Nat.digitChar_ne _ rfl) (by decide) n hc
  refine tells_of_noCloser (hdigits m) (hdigits n) fun h => ?_
  rw [← hexValue_toDigits m, h, hexValue_toDigits]

/-- A key and a value tell what both of them tell. -/
theorem Tells.entry {cs ds es fs : List Char} {P Q : Prop} (hkey : Tells cs ds P)
    (hvalue : Tells es fs Q) :
    Tells (cs ++ ':' :: ' ' :: es) (ds ++ ':' :: ' ' :: fs) (P ∧ Q) := by
  intro rest rest' hrest hrest' h
  rw [List.append_assoc, List.append_assoc] at h
  obtain ⟨hP, h⟩ := hkey (ended_cons_iff.2 (by decide)) (ended_cons_iff.2 (by decide)) h
  obtain ⟨hQ, hsame⟩ := hvalue hrest hrest' (List.cons.inj (List.cons.inj h).2).2
  exact ⟨⟨hP, hQ⟩, hsame⟩

/-! ## Quoted text -/

/-- A quoted character tells which one it is, whatever comes after it. -/
theorem quoteChar_append_inj {c d : Char} {rest rest' : List Char}
    (h : quoteChar c ++ rest = quoteChar d ++ rest') : c = d ∧ rest = rest' := by
  have hc := quotedForm c
  have hd := quotedForm d
  generalize quoteChar c = cs at hc h
  generalize quoteChar d = ds at hd h
  cases hc with
  | escape hc _ =>
    cases hd with
    | escape hd _ =>
      simp only [List.cons_append, List.nil_append, List.cons.injEq, true_and] at h
      obtain ⟨rfl, h⟩ := h
      exact ⟨Option.some.inj (hc.symm.trans hd), h⟩
    | number =>
      obtain ⟨rfl, -⟩ := List.cons.inj (List.cons.inj h).2
      contradiction
    | plain _ _ hslash => exact absurd (List.cons.inj h).1.symm hslash
  | number _ =>
    cases hd with
    | escape hd _ =>
      obtain ⟨rfl, -⟩ := List.cons.inj (List.cons.inj h).2
      contradiction
    | number =>
      simp only [List.cons_append, List.append_assoc, List.nil_append, List.cons.injEq,
        true_and] at h
      -- The brace that closes the number is one of the closers.
      obtain ⟨hcd, hrest⟩ := tells_toDigits c.toNat d.toNat (ended_cons_iff.2 (by decide))
        (ended_cons_iff.2 (by decide)) h
      exact ⟨Char.toNat_inj.1 hcd, (List.cons.inj hrest).2⟩
    | plain _ _ hslash => exact absurd (List.cons.inj h).1.symm hslash
  | plain _ _ hslash _ =>
    cases hd with
    | plain => exact List.cons.inj h
    | _ => exact absurd (List.cons.inj h).1 hslash

/-- No quoted character begins with a quote. -/
theorem quoteChar_append_ne (c : Char) (rest rest' : List Char) :
    quoteChar c ++ rest ≠ '"' :: rest' := by
  have hform := quotedForm c
  generalize quoteChar c = form at hform
  cases hform with
  | plain _ hquote => exact fun h => hquote (List.cons.inj h).1
  | _ => exact fun h => absurd (List.cons.inj h).1 (by decide)

/-- **Quoted text tells what is quoted**, whatever comes after the closing quote. -/
theorem quotedChars_append_inj {cs ds rest rest' : List Char}
    (h : cs.flatMap quoteChar ++ '"' :: rest = ds.flatMap quoteChar ++ '"' :: rest') :
    cs = ds ∧ rest = rest' := by
  induction cs generalizing ds with
  | nil =>
    cases ds with
    | nil => exact ⟨rfl, (List.cons.inj h).2⟩
    | cons d ds =>
      rw [List.flatMap_cons, List.append_assoc] at h
      exact absurd h.symm (quoteChar_append_ne d _ _)
  | cons c cs ih =>
    cases ds with
    | nil =>
      rw [List.flatMap_cons, List.append_assoc] at h
      exact absurd h (quoteChar_append_ne c _ _)
    | cons d ds =>
      rw [List.flatMap_cons, List.flatMap_cons, List.append_assoc, List.append_assoc] at h
      obtain ⟨rfl, htail⟩ := quoteChar_append_inj h
      obtain ⟨rfl, hrest⟩ := ih htail
      exact ⟨rfl, hrest⟩

theorem tells_quoted (s t : String) : Tells (quoted s).toList (quoted t).toList (s = t) := by
  intro rest rest' _ _ h
  simp only [quoted, String.toList_ofList, List.cons_append, List.append_assoc,
    List.nil_append] at h
  obtain ⟨hst, hrest⟩ := quotedChars_append_inj (List.cons.inj h).2
  exact ⟨String.toList_inj.1 hst, hrest⟩

/-! ## Lists -/

/-- Parts between separators, from the first one on. -/
theorem intercalate_eq_flatMap (separator cs : List Char) (parts : List (List Char)) :
    separator.intercalate (cs :: parts) = cs ++ parts.flatMap (separator ++ ·) := by
  induction parts generalizing cs with
  | nil => simp
  | cons ds parts ih =>
    rw [List.intercalate_cons_cons, ih, List.flatMap_cons, List.append_assoc, List.append_assoc]

section

variable {α β : Type} {f : α → List Char} {g : β → List Char} {R : α → β → Prop} {close : Char}

/-- Parts that each have a separator before them are ended, and so is a bracket that closes. -/
theorem ended_flatMap (hclose : close ∈ closers) (xs : List α) (rest : List Char) :
    Ended (xs.flatMap ([',', ' '] ++ f ·) ++ close :: rest) := by
  cases xs with
  | nil => exact ended_cons_iff.2 hclose
  | cons x xs => exact ended_cons_iff.2 (by decide)

/-- The parts after the first one. The induction is on the one list along the other. -/
theorem forall₂_of_flatMap_eq (hclose : close ∈ closers) (hcomma : close ≠ ',')
    {xs : List α} {ys : List β} (hread : ∀ x ∈ xs, ∀ y ∈ ys, Tells (f x) (g y) (R x y))
    {rest rest' : List Char} (h : xs.flatMap ([',', ' '] ++ f ·) ++ close :: rest =
      ys.flatMap ([',', ' '] ++ g ·) ++ close :: rest') :
    List.Forall₂ R xs ys ∧ rest = rest' := by
  induction xs generalizing ys with
  | nil =>
    cases ys with
    | nil => exact ⟨.nil, (List.cons.inj h).2⟩
    | cons y ys => exact absurd (List.cons.inj h).1 hcomma
  | cons x xs ih =>
    cases ys with
    | nil => exact absurd (List.cons.inj h).1.symm hcomma
    | cons y ys =>
      rw [List.flatMap_cons, List.flatMap_cons, List.append_assoc, List.append_assoc,
        List.append_assoc, List.append_assoc] at h
      obtain ⟨hxy, h⟩ := hread x List.mem_cons_self y List.mem_cons_self
        (ended_flatMap hclose xs rest) (ended_flatMap hclose ys rest') (List.append_cancel_left h)
      obtain ⟨hxys, hrest⟩ := ih (fun x' hx' y' hy' =>
        hread x' (List.mem_cons_of_mem x hx') y' (List.mem_cons_of_mem y hy')) h
      exact ⟨.cons hxy hxys, hrest⟩

/-- **Lists between brackets tell of their parts**, one by one, what these tell. -/
theorem tells_list (hclose : close ∈ closers) (hcomma : close ≠ ',')
    {xs : List α} {ys : List β} (hxs : ∀ x ∈ xs, ¬Ended (f x)) (hys : ∀ y ∈ ys, ¬Ended (g y))
    (hread : ∀ x ∈ xs, ∀ y ∈ ys, Tells (f x) (g y) (R x y)) (start : Char) :
    Tells (start :: ([',', ' '].intercalate (xs.map f) ++ [close]))
      (start :: ([',', ' '].intercalate (ys.map g) ++ [close])) (List.Forall₂ R xs ys) := by
  -- A list that is empty closes at once, where the first part of another one would begin.
  have hfirst {cs more rest : List Char} (hcs : ¬Ended cs) : close :: rest ≠ cs ++ more := by
    intro h
    cases cs with
    | nil => exact hcs ended_nil
    | cons c cs =>
      obtain ⟨rfl, -⟩ := List.cons.inj h
      exact hcs (ended_cons_iff.2 hclose)
  intro rest rest' _ _ h
  simp only [List.cons_append, List.append_assoc, List.nil_append, List.cons.injEq,
    true_and] at h
  cases xs with
  | nil =>
    cases ys with
    | nil => exact ⟨.nil, (List.cons.inj h).2⟩
    | cons y ys =>
      rw [List.map_cons, intercalate_eq_flatMap, List.append_assoc] at h
      exact absurd h (hfirst (hys y List.mem_cons_self))
  | cons x xs =>
    cases ys with
    | nil =>
      rw [List.map_cons, intercalate_eq_flatMap, List.append_assoc] at h
      exact absurd h.symm (hfirst (hxs x List.mem_cons_self))
    | cons y ys =>
      rw [List.map_cons, List.map_cons, intercalate_eq_flatMap, intercalate_eq_flatMap,
        List.flatMap_map, List.flatMap_map, List.append_assoc, List.append_assoc] at h
      obtain ⟨hxy, h⟩ := hread x List.mem_cons_self y List.mem_cons_self
        (ended_flatMap hclose xs rest) (ended_flatMap hclose ys rest') h
      obtain ⟨hxys, hrest⟩ := forall₂_of_flatMap_eq hclose hcomma (fun x' hx' y' hy' =>
        hread x' (List.mem_cons_of_mem x hx') y' (List.mem_cons_of_mem y hy')) h
      exact ⟨.cons hxy hxys, hrest⟩

end

end Text
end StackMachine
