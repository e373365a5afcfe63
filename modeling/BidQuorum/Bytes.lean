set_option autoImplicit false

/-! # Bytes

Everything that travels between validators is a list of bytes. This file fixes that type, the
lists of a known length (hashes, keys, signatures) and the reading of such a list as a number. -/

namespace BidQuorum

/-- A finite sequence of bytes. -/
abbrev Bytes := List UInt8

/-- Exactly `n` bytes. -/
structure Octets (n : Nat) where
  bytes : Bytes
  length_eq : bytes.length = n
deriving DecidableEq

namespace Octets

/-- The given bytes, if there are `n` of them. -/
def ofBytes? (n : Nat) (bytes : Bytes) : Option (Octets n) :=
  if h : bytes.length = n then some ⟨bytes, h⟩ else none

theorem ofBytes?_bytes {n : Nat} (o : Octets n) : ofBytes? n o.bytes = some o := by
  simp [ofBytes?, o.length_eq]

end Octets

/-! ## Numbers, least significant byte first -/

/-- The `width` low bytes of `n`, least significant first. -/
def littleEndian : (width n : Nat) → Bytes
  | 0, _ => []
  | width + 1, n => UInt8.ofNat n :: littleEndian width (n / 256)

/-- The number that the bytes spell, least significant first. -/
def ofLittleEndian : Bytes → Nat
  | [] => 0
  | b :: rest => b.toNat + 256 * ofLittleEndian rest

theorem length_littleEndian (width n : Nat) : (littleEndian width n).length = width := by
  induction width generalizing n with
  | zero => rfl
  | succ width ih => simp [littleEndian, ih]

end BidQuorum
