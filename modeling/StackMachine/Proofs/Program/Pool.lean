import StackMachine.Program.Container
import StackMachine.Proofs.Bytes
import StackMachine.Proofs.Text.Utf8

/-!
# Reading the string pool

A pool is read back exactly when it was written: the entries that `decodePool` accepts are the
ones whose text has no NUL and whose hash is that of the text, and the bytes it accepts are their
encodings one after another. The first NUL byte ends a text, because UTF-8 spells no other
character with a NUL byte; what the hash bytes are does not matter, since they are counted off.
-/

namespace StackMachine

/-! ## NUL bytes of UTF-8 texts -/

/-- A text has a NUL byte exactly when it has the character NUL. -/
theorem zero_mem_toUTF8_iff (s : String) : 0 ∈ s.toUTF8.data.toList ↔ '\x00' ∈ s.toList :=
  mem_toUTF8_iff (x := '\x00') (by decide) s

/-- The text of some bytes is the one that has them as its UTF-8 bytes. -/
theorem textOfBytes?_eq_some_iff {bytes : List UInt8} {s : String} :
    textOfBytes? bytes = some s ↔ bytes = s.toUTF8.data.toList := by
  rw [textOfBytes?, String.fromUTF8?]
  constructor
  · intro h
    split at h
    · cases Option.some.inj h
      rfl
    · contradiction
  · rintro rfl
    exact dif_pos s.isValidUTF8

/-! ## One entry -/

/-- An entry that a file can hold: the NUL after the text is the first one, and the hash is the
one that is checked when the file is read. -/
structure PoolEntry.Storable (e : PoolEntry) : Prop where
  noNul : '\x00' ∉ e.text.toList
  hash_eq : e.hash = hashText e.text

theorem PoolEntry.length_encode (e : PoolEntry) :
    e.encode.length = e.text.toUTF8.data.toList.length + 9 := by
  simp [encode]

/-- The text of an entry and what follows it, cut at the first NUL byte. -/
private theorem span_utf8 {s : String} (h : '\x00' ∉ s.toList) (rest : List UInt8) :
    (s.toUTF8.data.toList ++ 0 :: rest).takeWhile (· != 0) = s.toUTF8.data.toList ∧
      (s.toUTF8.data.toList ++ 0 :: rest).dropWhile (· != 0) = 0 :: rest := by
  have hne : ∀ b ∈ s.toUTF8.data.toList, (b != 0) = true := by
    intro b hb
    have : b ≠ 0 := by
      rintro rfl
      exact h ((zero_mem_toUTF8_iff s).1 hb)
    simpa using this
  constructor
  · rw [List.takeWhile_append_of_pos hne]
    simp
  · rw [List.dropWhile_append_of_pos hne]
    simp

/-- Reading goes past an entry that was written. -/
theorem decodePool_encode_append {e : PoolEntry} (he : e.Storable) (offset index : Nat)
    (rest : List UInt8) :
    decodePool offset index (e.encode ++ rest) =
      (decodePool (offset + e.encode.length) (index + 1) rest).map (e :: ·) := by
  obtain ⟨text, hash⟩ := e
  obtain ⟨hnul, hhash⟩ := he
  simp only at hnul hhash
  subst hhash
  have hspan := span_utf8 hnul (Bytes.littleEndian 8 (hashText text).toNat ++ rest)
  have hstored : UInt64.ofNat (Bytes.ofLittleEndian
      (Bytes.littleEndian 8 (hashText text).toNat)) = hashText text := by
    rw [Bytes.ofLittleEndian_of_lt (hashText text).toNat_lt, UInt64.ofNat_toNat]
  have htake : (Bytes.littleEndian 8 (hashText text).toNat ++ rest).take 8 =
      Bytes.littleEndian 8 (hashText text).toNat := by
    rw [List.take_left' (Bytes.length_littleEndian 8 _)]
  have hdrop : (Bytes.littleEndian 8 (hashText text).toNat ++ rest).drop 8 = rest := by
    rw [List.drop_left' (Bytes.length_littleEndian 8 _)]
  rw [PoolEntry.length_encode, PoolEntry.encode, List.append_assoc, List.cons_append]
  generalize hbytes : text.toUTF8.data.toList ++
    0 :: (Bytes.littleEndian 8 (hashText text).toNat ++ rest) = bytes at hspan ⊢
  cases bytes with
  | nil => simp at hbytes
  | cons first more =>
    rw [decodePool]
    simp only [hspan.1]
    split
    · next hnil => rw [hspan.2] at hnil; contradiction
    · next hcons =>
      rw [hspan.2] at hcons
      obtain ⟨-, rfl⟩ := List.cons.inj hcons
      rw [textOfBytes?_eq_some_iff.2 rfl]
      simp [htake, hdrop, hstored, Nat.add_assoc]

/-! ## The whole pool -/

/-- What was written is read back. -/
theorem decodePool_flatMap_encode {es : List PoolEntry} (hes : ∀ e ∈ es, e.Storable)
    (offset index : Nat) : decodePool offset index (es.flatMap PoolEntry.encode) = .ok es := by
  induction es generalizing offset index with
  | nil => rw [List.flatMap_nil, decodePool]
  | cons e es ih =>
    have hrest := ih (fun x hx => hes x (by simp [hx])) (offset + e.encode.length) (index + 1)
    rw [List.flatMap_cons, decodePool_encode_append (hes e (by simp)), hrest]
    rfl

/-- A cut that is not at the end is at a NUL byte. -/
private theorem eq_append_zero_of_dropWhile {bytes rest : List UInt8} {head : UInt8}
    (h : bytes.dropWhile (· != 0) = head :: rest) :
    bytes = bytes.takeWhile (· != 0) ++ 0 :: rest := by
  have hhead := List.head?_dropWhile_not (· != 0) bytes
  rw [h] at hhead
  have h0 : head = 0 := by simpa using hhead
  calc bytes = bytes.takeWhile (· != 0) ++ bytes.dropWhile (· != 0) :=
        List.takeWhile_append_dropWhile.symm
    _ = bytes.takeWhile (· != 0) ++ 0 :: rest := by rw [h, h0]

/-- What is read was written. -/
theorem eq_encode_of_decodePool {bytes : List UInt8} {offset index : Nat}
    {es : List PoolEntry} (h : decodePool offset index bytes = .ok es) :
    (∀ e ∈ es, e.Storable) ∧ bytes = es.flatMap PoolEntry.encode := by
  fun_induction decodePool offset index bytes generalizing es with
  | case1 =>
    obtain rfl := Except.ok.inj h
    simp
  | case6 offset index first more textBytes head rest hcut text htext hashBytes hlen stored
      hhash hlt =>
    rename_i ih
    cases hrec : decodePool (offset + textBytes.length + 9) (index + 1) (rest.drop 8) with
    | error e => simp [hrec, Except.map] at h
    | ok es' =>
      rw [hrec] at h
      obtain rfl := Except.ok.inj h
      obtain ⟨hstorable, hrest⟩ := ih hrec
      have hspell : textBytes = text.toUTF8.data.toList := textOfBytes?_eq_some_iff.1 htext
      -- The cut is at the first NUL byte, so there is none in the text before it.
      have hnul : '\x00' ∉ text.toList := by
        intro hmem
        rw [← zero_mem_toUTF8_iff, ← hspell] at hmem
        have := List.mem_takeWhile_imp hmem
        simp at this
      have heq : stored = hashText text := by simpa using hhash
      have hwidth : hashBytes.length = 8 := by
        have : hashBytes.length ≤ 8 := List.length_take_le 8 rest
        omega
      have hwritten : Bytes.littleEndian 8 stored.toNat = hashBytes := by
        have hlt64 : Bytes.ofLittleEndian hashBytes < 2 ^ 64 := by
          have := Bytes.ofLittleEndian_lt hashBytes
          rwa [hwidth] at this
        rw [UInt64.toNat_ofNat_of_lt' hlt64, ← hwidth, Bytes.littleEndian_ofLittleEndian]
      constructor
      · intro e he
        rcases List.mem_cons.1 he with rfl | he
        · exact ⟨hnul, heq⟩
        · exact hstorable e he
      · calc first :: more = textBytes ++ 0 :: rest := eq_append_zero_of_dropWhile hcut
          _ = textBytes ++ 0 :: (hashBytes ++ rest.drop 8) := by
              rw [List.take_append_drop 8 rest]
          _ = PoolEntry.encode ⟨text, stored⟩ ++ es'.flatMap PoolEntry.encode := by
              rw [PoolEntry.encode, hwritten, ← hspell, ← hrest]
              simp
          _ = _ := rfl
  | _ => contradiction

/-- **The pool is read exactly when it was written**, from any offset and index on. -/
theorem decodePool_eq_ok_iff {bytes : List UInt8} {offset index : Nat} {es : List PoolEntry} :
    decodePool offset index bytes = .ok es ↔
      (∀ e ∈ es, e.Storable) ∧ bytes = es.flatMap PoolEntry.encode := by
  constructor
  · exact eq_encode_of_decodePool
  · rintro ⟨hes, rfl⟩
    exact decodePool_flatMap_encode hes offset index

end StackMachine
