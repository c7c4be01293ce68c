import Mathlib

/-!
# Bytes of texts

A text is the spellings of its characters one after another. A byte below 128 spells its own
character and occurs in no longer spelling, so such bytes of a text stand for characters.
-/

namespace StackMachine

variable {x c : Char}

theorem toUTF8_eq_flatMap (s : String) :
    s.toUTF8.data.toList = s.toList.flatMap String.utf8EncodeChar := by
  rw [String.toUTF8_eq_toByteArray, ← String.utf8Encode_toList]
  simp [List.utf8Encode]

/-! ## Bytes of ASCII characters -/

theorem ofNat_toNat_eq_ofNat_iff (hx : x.toNat ≤ 127) {v : Nat} (hv : v < 256) :
    UInt8.ofNat x.toNat = UInt8.ofNat v ↔ x.toNat = v := by
  rw [← UInt8.toNat_inj, UInt8.toNat_ofNat', UInt8.toNat_ofNat']
  omega

/-- A byte below 128 spells its own character only: every byte of a longer spelling has its top bit
set. -/
theorem mem_utf8EncodeChar_iff (hx : x.toNat ≤ 127) :
    UInt8.ofNat x.toNat ∈ String.utf8EncodeChar c ↔ x = c := by
  simp only [String.utf8EncodeChar, Char.toNat_val]
  split
  · rw [List.mem_singleton, ofNat_toNat_eq_ofNat_iff hx (by omega), Char.toNat_inj]
  · next hlong =>
    have hne : x ≠ c := by
      rintro rfl
      exact hlong hx
    have htop {v : Nat} (hlow : 128 ≤ v) (hhigh : v < 256) :
        UInt8.ofNat x.toNat ≠ UInt8.ofNat v := by
      rw [Ne, ofNat_toNat_eq_ofNat_iff hx hhigh]
      omega
    simp only [hne, iff_false]
    split_ifs <;> simp only [List.mem_cons, List.not_mem_nil, or_false, not_or]
    · exact ⟨htop (by omega) (by omega), htop (by omega) (by omega)⟩
    · exact ⟨htop (by omega) (by omega), htop (by omega) (by omega),
        htop (by omega) (by omega)⟩
    · exact ⟨htop (by omega) (by omega), htop (by omega) (by omega),
        htop (by omega) (by omega), htop (by omega) (by omega)⟩

/-- A text has a byte below 128 exactly when it has the character. -/
theorem mem_toUTF8_iff (hx : x.toNat ≤ 127) (s : String) :
    UInt8.ofNat x.toNat ∈ s.toUTF8.data.toList ↔ x ∈ s.toList := by
  rw [toUTF8_eq_flatMap, List.mem_flatMap]
  constructor
  · rintro ⟨c, hc, hmem⟩
    exact (mem_utf8EncodeChar_iff hx).1 hmem ▸ hc
  · intro h
    exact ⟨x, h, (mem_utf8EncodeChar_iff hx).2 rfl⟩

theorem utf8EncodeChar_of_ascii (hx : x.toNat ≤ 127) :
    String.utf8EncodeChar x = [UInt8.ofNat x.toNat] := by
  simp only [String.utf8EncodeChar, Char.toNat_val, if_pos hx]

/-- A byte below 128 begins the spelling of its own character only. -/
theorem cons_prefix_utf8EncodeChar_iff (hx : x.toNat ≤ 127) {more rest : List UInt8} :
    UInt8.ofNat x.toNat :: more <+: String.utf8EncodeChar c ++ rest ↔ x = c ∧ more <+: rest := by
  by_cases hc : x = c
  · subst hc
    rw [utf8EncodeChar_of_ascii hx, List.singleton_append, List.cons_prefix_cons]
    simp
  · have hlength : 0 < (String.utf8EncodeChar c).length := by
      rw [String.length_utf8EncodeChar]
      exact c.utf8Size_pos
    obtain ⟨b, bytes, hbytes⟩ := List.exists_cons_of_length_pos hlength
    have hb : UInt8.ofNat x.toNat ≠ b := by
      rintro rfl
      exact hc ((mem_utf8EncodeChar_iff hx).1 (by rw [hbytes]; exact List.mem_cons_self))
    rw [hbytes, List.cons_append, List.cons_prefix_cons]
    simp [hb, hc]

/-- The bytes of a text begin with those of ASCII characters exactly when the text begins with the
characters. -/
theorem prefix_toUTF8_iff {cs : List Char} (hascii : ∀ c ∈ cs, c.toNat ≤ 127) (s : String) :
    cs.map (fun c => UInt8.ofNat c.toNat) <+: s.toUTF8.data.toList ↔ cs <+: s.toList := by
  rw [toUTF8_eq_flatMap]
  generalize s.toList = ds
  induction cs generalizing ds with
  | nil => simp
  | cons c cs ih =>
    cases ds with
    | nil => simp
    | cons d ds =>
      rw [List.map_cons, List.flatMap_cons,
        cons_prefix_utf8EncodeChar_iff (hascii c List.mem_cons_self), List.cons_prefix_cons,
        ih fun c hc => hascii c (List.mem_cons_of_mem _ hc)]

end StackMachine
