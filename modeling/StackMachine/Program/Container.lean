import StackMachine.Program.Basic

/-!
# The container format

A program as a file: a marker of eight bytes, the offset of the string pool in eight bytes, the code
up to that offset, and then the entries of the pool, each a text in UTF-8 with a NUL after it and
its hash in eight bytes. Words are little-endian. The offset and every hash are checked when a file
is read, so that a file is accepted only if writing the program gives the same file.
-/

namespace StackMachine

/-! ## Writing -/

/-- The format and its version. -/
def containerMarker : List UInt8 := [0x5a, 0x4f, 0x45, 0x42, 0x43, 0, 0, 1]

/-- The number of bytes before the code. -/
def headerLength : Nat := 16

/-- The bytes of a pool entry. -/
def PoolEntry.encode (e : PoolEntry) : List UInt8 :=
  e.text.toUTF8.data.toList ++ 0 :: Bytes.littleEndian 8 e.hash.toNat

/-- The file of a program. -/
def Program.encode (p : Program) : List UInt8 :=
  containerMarker ++ Bytes.littleEndian 8 (headerLength + p.code.size) ++ p.code.toList ++
    p.strings.toList.flatMap PoolEntry.encode

/-! ## Reading -/

/-- Why a file is not a program. -/
inductive FormatError where
  | truncatedHeader (length : Nat)
  | badMarker
  | badPoolOffset (offset length : Nat)
  | unterminatedString (offset : Nat)
  | invalidText (offset : Nat)
  | truncatedHash (offset : Nat)
  | hashMismatch (index : Nat) (stored computed : UInt64)
deriving DecidableEq, Repr

/-- The message of a format error. -/
def FormatError.message : FormatError → String
  | .truncatedHeader length =>
    "file is " ++ Text.decimal length ++ " bytes, shorter than the 16-byte header"
  | .badMarker => "bad magic/version marker"
  | .badPoolOffset offset length =>
    "string pool offset " ++ Text.decimal offset ++ " outside file of " ++ Text.decimal length ++
      " bytes"
  | .unterminatedString offset =>
    "string pool entry at byte " ++ Text.decimal offset ++ " is not NUL-terminated"
  | .invalidText offset =>
    "string pool entry at byte " ++ Text.decimal offset ++ " is not valid UTF-8"
  | .truncatedHash offset =>
    "string pool entry at byte " ++ Text.decimal offset ++ " is missing its hash"
  | .hashMismatch index stored computed =>
    "string pool entry " ++ Text.decimal index ++ " has hash 0x" ++ Text.hex 16 stored.toNat ++
      ", expected 0x" ++ Text.hex 16 computed.toNat

/-- The text of UTF-8 bytes. -/
def textOfBytes? (bytes : List UInt8) : Option String := String.fromUTF8? ⟨bytes.toArray⟩

/-- The pool entries in the bytes from an offset on, where the next entry has the given index. -/
def decodePool (offset index : Nat) (bytes : List UInt8) : Except FormatError (List PoolEntry) :=
  match bytes with
  | [] => .ok []
  | first :: more =>
    let textBytes := (first :: more).takeWhile (· != 0)
    match hrest : (first :: more).dropWhile (· != 0) with
    | [] => .error (.unterminatedString offset)
    | _ :: rest =>
      match textOfBytes? textBytes with
      | none => .error (.invalidText offset)
      | some text =>
        let hashBytes := rest.take 8
        if hashBytes.length < 8 then
          .error (.truncatedHash offset)
        else
          let stored := UInt64.ofNat (Bytes.ofLittleEndian hashBytes)
          if stored ≠ hashText text then
            .error (.hashMismatch index stored (hashText text))
          else
            have : rest.length < more.length + 1 := by
              have := (List.dropWhile_sublist (fun b : UInt8 => b != 0)
                (l := first :: more)).length_le
              rw [hrest] at this
              exact this
            (decodePool (offset + textBytes.length + 9) (index + 1) (rest.drop 8)).map
              (⟨text, stored⟩ :: ·)
termination_by bytes.length

/-- The program of a file. -/
def Program.decode (bytes : List UInt8) : Except FormatError Program := do
  let length := bytes.length
  if length < headerLength then
    .error (.truncatedHeader length)
  else if bytes.take 8 ≠ containerMarker then
    .error .badMarker
  else
    let offset := Bytes.ofLittleEndian ((bytes.drop 8).take 8)
    if offset < headerLength ∨ length < offset then
      .error (.badPoolOffset offset length)
    else
      let body := bytes.drop headerLength
      let codeLength := offset - headerLength
      let entries ← decodePool offset 0 (body.drop codeLength)
      .ok { code := (body.take codeLength).toArray, strings := entries.toArray }

end StackMachine
