/-!
# Stable hashing

The 64-bit FNV-1a hash. A hash is stored in files beside every string, so it depends on the bytes
alone.
-/

namespace StackMachine.Fnv

/-- The hash of no bytes. -/
def basis : UInt64 := 0xcbf29ce484222325

/-- The multiplier applied after each byte. -/
def prime : UInt64 := 0x100000001b3

/-- One byte mixed into a running hash. -/
def mixByte (hash : UInt64) (byte : UInt8) : UInt64 :=
  (hash ^^^ byte.toUInt64) * prime

/-- A byte list mixed into a running hash, first byte first. -/
def mix (hash : UInt64) (bytes : List UInt8) : UInt64 :=
  bytes.foldl mixByte hash

/-- The hash of a payload that is set apart from the payloads of other kinds by its first byte. -/
def tagged (tag : UInt8) (payload : List UInt8) : UInt64 :=
  mix (mixByte basis tag) payload

end StackMachine.Fnv
