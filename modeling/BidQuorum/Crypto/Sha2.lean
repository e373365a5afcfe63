import BidQuorum.Bytes

set_option autoImplicit false

/-! # SHA-2

The hash functions SHA-256, under which transactions are known, and SHA-512, which signatures use.
They are one construction over words of 32 and of 64 bits: the message is padded to whole blocks of
sixteen words, and the blocks are mixed one after another into a chain of eight words. The two
differ in the word size, the number of rounds and the amounts by which words are rotated. -/

namespace BidQuorum.Sha2

/-! ## The two members of the family -/

/-- The eight words carried from block to block and from round to round. -/
structure Chain (w : Nat) where
  a : BitVec w
  b : BitVec w
  c : BitVec w
  d : BitVec w
  e : BitVec w
  f : BitVec w
  g : BitVec w
  h : BitVec w

/-- What distinguishes one hash function from the other. -/
structure Variant (w : Nat) where
  initial : Chain w
  /-- One constant for each round. -/
  constants : List (BitVec w)
  /-- The rotations mixed into the round from its first word. -/
  upper : Nat × Nat × Nat
  /-- The rotations mixed into the round from its fifth word. -/
  lower : Nat × Nat × Nat
  /-- Two rotations and a shift of the word fifteen places back in the schedule. -/
  early : Nat × Nat × Nat
  /-- Two rotations and a shift of the word two places back in the schedule. -/
  late : Nat × Nat × Nat

def sha256 : Variant 32 where
  initial := ⟨0x6a09e667, 0xbb67ae85, 0x3c6ef372, 0xa54ff53a,
    0x510e527f, 0x9b05688c, 0x1f83d9ab, 0x5be0cd19⟩
  constants := [
    0x428a2f98, 0x71374491, 0xb5c0fbcf, 0xe9b5dba5, 0x3956c25b, 0x59f111f1,
    0x923f82a4, 0xab1c5ed5, 0xd807aa98, 0x12835b01, 0x243185be, 0x550c7dc3,
    0x72be5d74, 0x80deb1fe, 0x9bdc06a7, 0xc19bf174, 0xe49b69c1, 0xefbe4786,
    0x0fc19dc6, 0x240ca1cc, 0x2de92c6f, 0x4a7484aa, 0x5cb0a9dc, 0x76f988da,
    0x983e5152, 0xa831c66d, 0xb00327c8, 0xbf597fc7, 0xc6e00bf3, 0xd5a79147,
    0x06ca6351, 0x14292967, 0x27b70a85, 0x2e1b2138, 0x4d2c6dfc, 0x53380d13,
    0x650a7354, 0x766a0abb, 0x81c2c92e, 0x92722c85, 0xa2bfe8a1, 0xa81a664b,
    0xc24b8b70, 0xc76c51a3, 0xd192e819, 0xd6990624, 0xf40e3585, 0x106aa070,
    0x19a4c116, 0x1e376c08, 0x2748774c, 0x34b0bcb5, 0x391c0cb3, 0x4ed8aa4a,
    0x5b9cca4f, 0x682e6ff3, 0x748f82ee, 0x78a5636f, 0x84c87814, 0x8cc70208,
    0x90befffa, 0xa4506ceb, 0xbef9a3f7, 0xc67178f2]
  upper := (2, 13, 22)
  lower := (6, 11, 25)
  early := (7, 18, 3)
  late := (17, 19, 10)

def sha512 : Variant 64 where
  initial := ⟨0x6a09e667f3bcc908, 0xbb67ae8584caa73b,
    0x3c6ef372fe94f82b, 0xa54ff53a5f1d36f1,
    0x510e527fade682d1, 0x9b05688c2b3e6c1f,
    0x1f83d9abfb41bd6b, 0x5be0cd19137e2179⟩
  constants := [
    0x428a2f98d728ae22, 0x7137449123ef65cd, 0xb5c0fbcfec4d3b2f, 0xe9b5dba58189dbbc,
    0x3956c25bf348b538, 0x59f111f1b605d019, 0x923f82a4af194f9b, 0xab1c5ed5da6d8118,
    0xd807aa98a3030242, 0x12835b0145706fbe, 0x243185be4ee4b28c, 0x550c7dc3d5ffb4e2,
    0x72be5d74f27b896f, 0x80deb1fe3b1696b1, 0x9bdc06a725c71235, 0xc19bf174cf692694,
    0xe49b69c19ef14ad2, 0xefbe4786384f25e3, 0x0fc19dc68b8cd5b5, 0x240ca1cc77ac9c65,
    0x2de92c6f592b0275, 0x4a7484aa6ea6e483, 0x5cb0a9dcbd41fbd4, 0x76f988da831153b5,
    0x983e5152ee66dfab, 0xa831c66d2db43210, 0xb00327c898fb213f, 0xbf597fc7beef0ee4,
    0xc6e00bf33da88fc2, 0xd5a79147930aa725, 0x06ca6351e003826f, 0x142929670a0e6e70,
    0x27b70a8546d22ffc, 0x2e1b21385c26c926, 0x4d2c6dfc5ac42aed, 0x53380d139d95b3df,
    0x650a73548baf63de, 0x766a0abb3c77b2a8, 0x81c2c92e47edaee6, 0x92722c851482353b,
    0xa2bfe8a14cf10364, 0xa81a664bbc423001, 0xc24b8b70d0f89791, 0xc76c51a30654be30,
    0xd192e819d6ef5218, 0xd69906245565a910, 0xf40e35855771202a, 0x106aa07032bbd1b8,
    0x19a4c116b8d2d0c8, 0x1e376c085141ab53, 0x2748774cdf8eeb99, 0x34b0bcb5e19b48a8,
    0x391c0cb3c5c95a63, 0x4ed8aa4ae3418acb, 0x5b9cca4f7763e373, 0x682e6ff3d6b2b8a3,
    0x748f82ee5defb2fc, 0x78a5636f43172f60, 0x84c87814a1f0ab72, 0x8cc702081a6439ec,
    0x90befffa23631e28, 0xa4506cebde82bde9, 0xbef9a3f7b2c67915, 0xc67178f2e372532b,
    0xca273eceea26619c, 0xd186b8c721c0c207, 0xeada7dd6cde0eb1e, 0xf57d4f7fee6ed178,
    0x06f067aa72176fba, 0x0a637dc5a2c898a6, 0x113f9804bef90dae, 0x1b710b35131c471b,
    0x28db77f523047d84, 0x32caab7b40c72493, 0x3c9ebe0a15c9bebc, 0x431d67c49c100d4c,
    0x4cc5d4becb3e42b6, 0x597f299cfc657e2a, 0x5fcb6fab3ad6faec, 0x6c44198c4a475817]
  upper := (28, 34, 39)
  lower := (14, 18, 41)
  early := (1, 8, 7)
  late := (19, 61, 6)

/-! ## Mixing one block -/

variable {w : Nat}

def rotations (r : Nat × Nat × Nat) (x : BitVec w) : BitVec w :=
  x.rotateRight r.1 ^^^ x.rotateRight r.2.1 ^^^ x.rotateRight r.2.2

def rotationsAndShift (r : Nat × Nat × Nat) (x : BitVec w) : BitVec w :=
  x.rotateRight r.1 ^^^ x.rotateRight r.2.1 ^^^ (x >>> r.2.2)

/-- One round. `input` is the sum of the round's constant and its word of the schedule. -/
def Chain.round (v : Variant w) (s : Chain w) (input : BitVec w) : Chain w :=
  let choice := (s.e &&& s.f) ^^^ (~~~s.e &&& s.g)
  let majority := (s.a &&& s.b) ^^^ (s.a &&& s.c) ^^^ (s.b &&& s.c)
  let mixed := s.h + rotations v.lower s.e + choice + input
  ⟨mixed + rotations v.upper s.a + majority, s.a, s.b, s.c, s.d + mixed, s.e, s.f, s.g⟩

def Chain.add (s t : Chain w) : Chain w :=
  ⟨s.a + t.a, s.b + t.b, s.c + t.c, s.d + t.d, s.e + t.e, s.f + t.f, s.g + t.g, s.h + t.h⟩

/-- The rounds for the given constants. `window` holds the next sixteen words of the schedule: at
first the block itself, then words computed from those before them. -/
def rounds (v : Variant w) : (constants window : List (BitVec w)) → Chain w → Chain w
  | [], _, s => s
  | k :: constants, window, s =>
      let word := window.getD 0 0
      let next := rotationsAndShift v.late (window.getD 14 0) + window.getD 9 0
        + rotationsAndShift v.early (window.getD 1 0) + word
      rounds v constants (window.drop 1 ++ [next]) (s.round v (k + word))

/-- The chain after one more block of sixteen words. -/
def mix (v : Variant w) (s : Chain w) (block : List (BitVec w)) : Chain w :=
  s.add (rounds v v.constants block s)

/-! ## From bytes to bytes -/

/-- The first `count` groups of `size` elements. -/
def groups {α : Type} (size : Nat) : (count : Nat) → List α → List (List α)
  | 0, _ => []
  | count + 1, xs => xs.take size :: groups size count (xs.drop size)

/-- The word whose bytes, most significant first, are given. -/
def word (bytes : Bytes) : BitVec w :=
  BitVec.ofNat w (ofLittleEndian bytes.reverse)

/-- A number as `width` bytes, most significant first. -/
def bigEndian (width n : Nat) : Bytes := (littleEndian width n).reverse

/-- The message, a single one bit, zeros, and the message's length in bits as a number of two
words: together a whole number of blocks. -/
def pad (w : Nat) (message : Bytes) : Bytes :=
  let block := 2 * w
  let used := message.length + 1 + w / 4
  message ++ 0x80 :: List.replicate ((block - used % block) % block) 0
    ++ bigEndian (w / 4) (8 * message.length)

/-- The digest of a message: the chain after all its blocks, each word most significant byte
first. -/
def hash (v : Variant w) (message : Bytes) : Bytes :=
  let padded := pad w message
  let words := (groups (w / 8) (padded.length / (w / 8)) padded).map word
  let s := (groups 16 (words.length / 16) words).foldl (mix v) v.initial
  [s.a, s.b, s.c, s.d, s.e, s.f, s.g, s.h].flatMap fun x => bigEndian (w / 8) x.toNat

theorem length_bigEndian (width n : Nat) : (bigEndian width n).length = width := by
  simp [bigEndian, length_littleEndian]

theorem length_hash (v : Variant w) (message : Bytes) :
    (hash v message).length = 8 * (w / 8) := by
  simp [hash, length_bigEndian]
  omega

end BidQuorum.Sha2

namespace BidQuorum

/-- The SHA-256 digest of a message. -/
def sha256 (message : Bytes) : Octets 32 :=
  ⟨Sha2.hash Sha2.sha256 message, Sha2.length_hash Sha2.sha256 message⟩

/-- The SHA-512 digest of a message. -/
def sha512 (message : Bytes) : Octets 64 :=
  ⟨Sha2.hash Sha2.sha512 message, Sha2.length_hash Sha2.sha512 message⟩

end BidQuorum
