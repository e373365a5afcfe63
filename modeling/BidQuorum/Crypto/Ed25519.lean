import BidQuorum.Crypto.Edwards
import BidQuorum.Crypto.Sha2

set_option autoImplicit false

/-! # Ed25519 signatures

A signature by the holder of a 32-byte seed is a point `R` and a scalar `S`. It is checked against
the signer's public key `A` by computing `[S]B - [k]A`, where the challenge `k` is a digest of `R`,
the key and the message, and comparing the result with `R` byte for byte. Signing needs no
randomness: equal seeds and messages give equal signatures. -/

namespace BidQuorum.Ed25519

open Edwards

/-- The order of the base point. -/
def order : Nat := Nat.pow 2 252 + 27742317777372353535851937790883648493

/-- Bytes taken as a scalar, least significant first. -/
def scalar (bytes : Bytes) : Nat := ofLittleEndian bytes % order

/-- What a signature answers to: a digest of its point, the public key and the message. -/
def challenge (point key message : Bytes) : Nat := scalar (sha512 (point ++ key ++ message)).bytes

/-! ## Keys -/

/-- A public key: 32 bytes that stand for a point of the curve. The bytes are kept as given, also
where the same point could be written otherwise. -/
structure PublicKey where
  octets : Octets 32
  point : Point
  decode_eq : Point.decode? octets = some point

/-- The public key that the bytes stand for, if they stand for a point. -/
def PublicKey.ofOctets? (octets : Octets 32) : Option PublicKey :=
  match h : Point.decode? octets with
  | some point => some ⟨octets, point, h⟩
  | none => none

/-- The secret scalar of a seed: the first half of its digest, made a multiple of eight between
`2²⁵⁴` and `2²⁵⁵`. -/
def secretScalar (seed : Octets 32) : Nat :=
  let n := ofLittleEndian ((sha512 seed.bytes).bytes.take 32)
  n % Nat.pow 2 254 / 8 * 8 + Nat.pow 2 254

/-- The bytes of the public key of a seed. -/
def publicBytes (seed : Octets 32) : Octets 32 :=
  ⟨((Point.base.multiple (secretScalar seed)).encode), length_littleEndian _ _⟩

/-! ## Signing and checking -/

/-- The signature of a message by the holder of a seed. -/
def sign (seed : Octets 32) (message : Bytes) : Octets 64 :=
  let nonce := scalar (sha512 ((sha512 seed.bytes).bytes.drop 32 ++ message)).bytes
  let point := (Point.base.multiple nonce).encode
  let k := challenge point (publicBytes seed).bytes message
  ⟨point ++ littleEndian 32 ((nonce + k * secretScalar seed) % order), by
    simp [point, Point.encode, length_littleEndian]⟩

/-- Whether `signature` is a signature of `message` under `key`. -/
def verify (key : PublicKey) (message : Bytes) (signature : Octets 64) : Bool :=
  let point := signature.bytes.take 32
  let s := ofLittleEndian (signature.bytes.drop 32)
  let k := challenge point key.octets.bytes message
  s < order && ((Point.base.multiple s).add (key.point.neg.multiple k)).encode == point

end BidQuorum.Ed25519
