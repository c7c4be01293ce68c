import StackMachine.Proofs.Program.Pool

/-!
# Exact acceptance of container files

A file is accepted exactly when it is what `Program.encode` writes for a program whose pool entries
can all be stored (`PoolEntry.Storable`), and it is then read as that program. The offset in the
header says where the code ends, so the header, the code and the pool are each cut off where they
were joined; the pool must use up the rest of the file.
-/

namespace StackMachine

/-! ## The header -/

/-- Every entry of the pool can be stored. -/
def Program.Storable (p : Program) : Prop := ∀ e ∈ p.strings, e.Storable

theorem length_containerMarker : containerMarker.length = 8 := rfl

/-- The parts that a file is written in. -/
theorem Program.encode_eq (p : Program) :
    p.encode = containerMarker ++ (Bytes.littleEndian 8 (headerLength + p.code.size) ++
      (p.code.toList ++ p.strings.toList.flatMap PoolEntry.encode)) := by
  simp only [encode, List.append_assoc]

theorem Program.length_encode (p : Program) :
    p.encode.length =
      headerLength + p.code.size + (p.strings.toList.flatMap PoolEntry.encode).length := by
  simp only [encode_eq, List.length_append, length_containerMarker, Bytes.length_littleEndian,
    Array.length_toList, headerLength]
  omega

/-- What reading a file comes to when the header is right. -/
theorem Program.decode_of_header {bytes : List UInt8} (hlen : headerLength ≤ bytes.length)
    (hmark : bytes.take 8 = containerMarker) {offset : Nat}
    (hoffset : Bytes.ofLittleEndian ((bytes.drop 8).take 8) = offset)
    (hlow : headerLength ≤ offset) (hhigh : offset ≤ bytes.length) :
    Program.decode bytes =
      (decodePool offset 0 (bytes.drop offset)).map fun entries =>
        { code := ((bytes.drop headerLength).take (offset - headerLength)).toArray,
          strings := entries.toArray } := by
  have hdrop : (bytes.drop headerLength).drop (offset - headerLength) = bytes.drop offset := by
    rw [List.drop_drop, Nat.add_sub_cancel' hlow]
  subst hoffset
  simp only [Program.decode, if_neg (Nat.not_lt.2 hlen), hmark, ne_eq, not_true_eq_false,
    if_false, if_neg (not_or.2 ⟨Nat.not_lt.2 hlow, Nat.not_lt.2 hhigh⟩), hdrop]
  cases decodePool _ 0 _ <;> rfl

/-- A file that is accepted has the header that is written for its code. -/
theorem Program.header_of_decode {bytes : List UInt8} {p : Program}
    (h : Program.decode bytes = .ok p) :
    headerLength ≤ bytes.length ∧ bytes.take 8 = containerMarker ∧
      headerLength ≤ Bytes.ofLittleEndian ((bytes.drop 8).take 8) ∧
      Bytes.ofLittleEndian ((bytes.drop 8).take 8) ≤ bytes.length := by
  simp only [Program.decode] at h
  split at h
  · contradiction
  · next hlen =>
    split at h
    · contradiction
    · next hmark =>
      split at h
      · contradiction
      · next hoffset =>
        rw [not_or, Nat.not_lt, Nat.not_lt] at hoffset
        exact ⟨Nat.not_lt.1 hlen, Decidable.not_not.1 hmark, hoffset⟩

/-! ## Both directions -/

/-- The pieces of a written file, cut where the header says. -/
theorem Program.encode_cuts (p : Program) (hsize : headerLength + p.code.size < 2 ^ 64) :
    p.encode.take 8 = containerMarker ∧
      Bytes.ofLittleEndian ((p.encode.drop 8).take 8) = headerLength + p.code.size ∧
      (p.encode.drop headerLength).take p.code.size = p.code.toList ∧
      p.encode.drop (headerLength + p.code.size) =
        p.strings.toList.flatMap PoolEntry.encode := by
  have hword := Bytes.length_littleEndian 8 (headerLength + p.code.size)
  have hrest : p.encode.drop headerLength =
      p.code.toList ++ p.strings.toList.flatMap PoolEntry.encode := by
    rw [show headerLength = 8 + 8 from rfl, ← List.drop_drop, encode_eq,
      List.drop_left' length_containerMarker, List.drop_left' hword]
  refine ⟨?_, ?_, ?_, ?_⟩
  · rw [encode_eq, List.take_left' length_containerMarker]
  · rw [encode_eq, List.drop_left' length_containerMarker, List.take_left' hword,
      Bytes.ofLittleEndian_of_lt hsize]
  · rw [hrest, List.take_left' Array.length_toList]
  · rw [← List.drop_drop, hrest, List.drop_left' Array.length_toList]

/-- What was written is read back. -/
theorem Program.decode_encode {p : Program} (hp : p.Storable)
    (hsize : headerLength + p.code.size < 2 ^ 64) : Program.decode p.encode = .ok p := by
  obtain ⟨hmark, hoffset, hcode, hpool⟩ := p.encode_cuts hsize
  have hlength := p.length_encode
  have hentries : decodePool (headerLength + p.code.size) 0
      (p.strings.toList.flatMap PoolEntry.encode) = .ok p.strings.toList :=
    decodePool_eq_ok_iff.2 ⟨fun e he => hp e (Array.mem_toList_iff.1 he), rfl⟩
  rw [decode_of_header (by omega) hmark hoffset (by omega) (by omega), hpool, hentries,
    Nat.add_sub_cancel_left, hcode]
  rfl

/-- A file is its header, the code up to the offset and the rest. -/
theorem eq_header_append {bytes : List UInt8} {offset : Nat}
    (hlen : headerLength ≤ bytes.length) (hmark : bytes.take 8 = containerMarker)
    (hoffset : Bytes.ofLittleEndian ((bytes.drop 8).take 8) = offset)
    (hlow : headerLength ≤ offset) :
    bytes = containerMarker ++ (Bytes.littleEndian 8 offset ++
      ((bytes.drop headerLength).take (offset - headerLength) ++ bytes.drop offset)) := by
  have h16 : headerLength = 8 + 8 := rfl
  have hword : Bytes.littleEndian 8 offset = (bytes.drop 8).take 8 := by
    have hwidth : ((bytes.drop 8).take 8).length = 8 := by
      rw [List.length_take, List.length_drop]
      omega
    have hback := Bytes.littleEndian_ofLittleEndian ((bytes.drop 8).take 8)
    rwa [hwidth, hoffset] at hback
  have htail : bytes.drop offset = (bytes.drop headerLength).drop (offset - headerLength) := by
    rw [List.drop_drop, Nat.add_sub_cancel' hlow]
  rw [hword, htail, List.take_append_drop, h16, ← List.drop_drop, List.take_append_drop,
    ← hmark, List.take_append_drop]

/-- What is read was written. -/
theorem Program.eq_encode_of_decode {bytes : List UInt8} {p : Program}
    (h : Program.decode bytes = .ok p) : p.Storable ∧ bytes = p.encode := by
  obtain ⟨hlen, hmark, hlow, hhigh⟩ := header_of_decode h
  generalize hoffset : Bytes.ofLittleEndian ((bytes.drop 8).take 8) = offset at hlow hhigh
  rw [decode_of_header hlen hmark hoffset hlow hhigh] at h
  cases hpool : decodePool offset 0 (bytes.drop offset) with
  | error e => simp [hpool, Except.map] at h
  | ok entries =>
    rw [hpool] at h
    obtain rfl := Except.ok.inj h
    obtain ⟨hstorable, hbytes⟩ := decodePool_eq_ok_iff.1 hpool
    constructor
    · intro e he
      exact hstorable e (by simpa using he)
    · have hsize : headerLength +
          ((bytes.drop headerLength).take (offset - headerLength)).length = offset := by
        rw [List.length_take, List.length_drop]
        omega
      rw [encode_eq, List.size_toArray, hsize, ← hbytes]
      exact eq_header_append hlen hmark hoffset hlow

/-- **Reading inverts writing, both ways.** -/
theorem Program.decode_eq_ok_iff {bytes : List UInt8} (hlen : bytes.length < 2 ^ 64)
    {p : Program} : Program.decode bytes = .ok p ↔ p.Storable ∧ bytes = p.encode := by
  constructor
  · exact eq_encode_of_decode
  · rintro ⟨hp, rfl⟩
    have := p.length_encode
    exact decode_encode hp (by omega)

/-- **Exact acceptance.** A file shorter than 2⁶⁴ bytes is read as a program exactly when no text
of the program has a NUL, every hash is that of its text, and the file is what is written for the
program. So no two files are read as the same program, and every file that is not written for a
program that can be stored is rejected. -/
theorem accepts_exactly_written_files {bytes : List UInt8} (hlen : bytes.length < 2 ^ 64) :
    (∀ p : Program, Program.decode bytes = .ok p ↔
      (∀ e ∈ p.strings, '\x00' ∉ e.text.toList) ∧ (∀ e ∈ p.strings, e.hash = hashText e.text) ∧
        bytes = p.encode) ∧
    (∀ (other : List UInt8) (p : Program),
      Program.decode bytes = .ok p → Program.decode other = .ok p → other = bytes) ∧
    ((∀ p : Program, p.Storable → bytes ≠ p.encode) →
      ∃ error, Program.decode bytes = .error error) := by
  refine ⟨?_, ?_, ?_⟩
  · intro p
    rw [Program.decode_eq_ok_iff hlen, ← and_assoc]
    refine and_congr_left fun _ => ⟨?_, ?_⟩
    · intro hp
      exact ⟨fun e he => (hp e he).noNul, fun e he => (hp e he).hash_eq⟩
    · rintro ⟨hnul, hhash⟩ e he
      exact ⟨hnul e he, hhash e he⟩
  · intro other p h hother
    rw [(Program.eq_encode_of_decode h).2, (Program.eq_encode_of_decode hother).2]
  · intro hnone
    cases h : Program.decode bytes with
    | error error => exact ⟨error, rfl⟩
    | ok p =>
      obtain ⟨hp, hbytes⟩ := Program.eq_encode_of_decode h
      exact absurd hbytes (hnone p hp)

/-- A file with an empty text and one that is not ASCII. -/
theorem file_with_two_texts_accepted :
    let p : Program := { code := #[0x05, 1, 0, 0, 0], strings := #[.ofText "", .ofText "é"] }
    p.encode.length < 2 ^ 64 ∧ Program.decode p.encode = .ok p := by
  intro p
  have hlen : p.encode.length < 2 ^ 64 := by decide
  refine ⟨hlen, ((accepts_exactly_written_files hlen).1 p).2 ⟨?_, ?_, rfl⟩⟩
  · decide
  · decide

end StackMachine
