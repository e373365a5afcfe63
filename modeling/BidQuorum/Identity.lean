import BidQuorum.Text.Base64
import BidQuorum.Wire.Sequence
import BidQuorum.Crypto.Ed25519

set_option autoImplicit false

/-! # Hashes, addresses and signatures

The names under which transactions and their signers are known. A transaction is known by the
SHA-256 digest of its bytes, an account by its public key in base64. -/

namespace BidQuorum

/-! ## Transaction hashes -/

/-- The digest that a transaction is known by. -/
structure TxHash where
  octets : Octets 32
deriving DecidableEq

namespace TxHash

instance : ToString TxHash := ⟨fun h => Base64.encode h.octets.bytes⟩

/-- Hashes are ordered by their bytes. -/
instance : Ord TxHash := ⟨compareOn fun h => h.octets.bytes⟩

instance : Std.TransOrd TxHash :=
  inferInstanceAs (Std.TransCmp (compareOn fun h : TxHash => h.octets.bytes))

instance : Std.LawfulEqOrd TxHash where
  eq_of_compare {a b} h := by
    have hb : a.octets.bytes = b.octets.bytes := Std.LawfulEqOrd.eq_of_compare h
    obtain ⟨⟨x, hx⟩⟩ := a
    obtain ⟨⟨y, hy⟩⟩ := b
    cases hb
    rfl

/-- The first seven digits of the hash. -/
def short (h : TxHash) : String := Base64.short h.octets.bytes

def describe (h : TxHash) : String := s!"TxHash({h})"

def format : Format TxHash := (Format.octets 32).map (⟨·⟩) (·.octets)

end TxHash

/-! ## Addresses -/

/-- The address of an account. -/
structure Address where
  text : String
deriving DecidableEq

namespace Address

instance : ToString Address := ⟨Address.text⟩

/-- The address of the account that holds a key. -/
def ofKey (key : Ed25519.PublicKey) : Address := ⟨Base64.encode key.octets.bytes⟩

/-- How two addresses compare: as texts, byte by byte. -/
def order (a b : Address) : Ordering := Utf8.compare a.text b.text

/-- The first seven characters of the address. -/
def short (a : Address) : String := String.ofList (a.text.toList.take 7)

def describe (a : Address) : String := s!"SignerAddress({a})"

def format : Format Address := Format.text.map (⟨·⟩) (·.text)

end Address

/-! ## Signatures -/

/-- The bytes of a signature. -/
structure Signature where
  octets : Octets 64
deriving DecidableEq

namespace Signature

def describe (s : Signature) : String := s!"SignatureBytes({Base64.encode s.octets.bytes})"

def format : Format Signature := (Format.octets 64).map (⟨·⟩) (·.octets)

end Signature

end BidQuorum
