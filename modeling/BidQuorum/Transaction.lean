import BidQuorum.Bid
import BidQuorum.Identity

set_option autoImplicit false

/-! # Transactions

A transaction is a list of messages and the signatures of the accounts that authorised them. Bids
are the only messages that are understood here; any other message is carried for the module it
belongs to. Each signature is over the bytes of the message list alone, so a signature can be added
or removed without disturbing the others, and only signatures that verify count. A message list that
is too long to be written has no bytes to be signed, and a transaction that is too long has no hash. -/

namespace BidQuorum

/-! ## Messages -/

/-- A message of another module, known by its type and otherwise not looked into. -/
structure ForeignMessage where
  typeUrl : String
  value : Bytes
deriving DecidableEq

/-- The type, then the content. -/
def ForeignMessage.format : Format ForeignMessage :=
  (Format.text.pair Format.blob).map (fun x => ⟨x.1, x.2⟩) (fun m => (m.typeUrl, m.value))

/-- The type and the content can be written. -/
structure ForeignMessage.Fits (m : ForeignMessage) : Prop where
  typeUrl : Format.FitsText m.typeUrl
  value : m.value.length < UInt32.size

instance (m : ForeignMessage) : Decidable m.Fits :=
  decidable_of_iff (Format.FitsText m.typeUrl ∧ m.value.length < UInt32.size)
    ⟨fun h => ⟨h.1, h.2⟩, fun h => ⟨h.typeUrl, h.value⟩⟩

/-- A single instruction of a transaction. -/
inductive Message where
  | bid (bid : Bid)
  | foreign (message : ForeignMessage)
deriving DecidableEq

namespace Message

/-- The bid, if the message is one. -/
def bid? : Message → Option Bid
  | bid b => some b
  | foreign _ => none

/-- A tag, 0 for a bid and 1 for any other message, then the message. -/
def format : Format Message :=
  (Bid.format.either ForeignMessage.format).map
    (fun | .inl b => bid b | .inr m => foreign m)
    (fun | bid b => .inl b | foreign m => .inr m)

/-- What the message holds can be written. -/
def Fits : Message → Prop
  | bid b => b.Fits
  | foreign m => m.Fits

instance (m : Message) : Decidable m.Fits :=
  match m with
  | .bid b => inferInstanceAs (Decidable b.Fits)
  | .foreign m => inferInstanceAs (Decidable m.Fits)

/-- The messages can be written, one after another. -/
def AllFit (messages : List Message) : Prop :=
  messages.length < UInt32.size ∧ ∀ m ∈ messages, m.Fits

instance (messages : List Message) : Decidable (AllFit messages) :=
  inferInstanceAs (Decidable (_ ∧ _))

end Message

/-! ## Signatures and signers -/

/-- A signature, with the key that supposedly made it. -/
structure TxSignature where
  key : Octets 32
  signature : Signature
deriving DecidableEq

/-- The key, then the signature. -/
def TxSignature.format : Format TxSignature :=
  ((Format.octets 32).pair Signature.format).map (fun x => ⟨x.1, x.2⟩)
    (fun s => (s.key, s.signature))

/-- An account whose signature has been verified. -/
structure Signer where
  address : Address
  key : Ed25519.PublicKey

/-- The account that made a signature over `message`, if the key is one and the signature is its. -/
def TxSignature.signer? (message : Bytes) (s : TxSignature) : Option Signer :=
  match Ed25519.PublicKey.ofOctets? s.key with
  | none => none
  | some key =>
      if Ed25519.verify key message s.signature.octets then some ⟨Address.ofKey key, key⟩ else none

/-! ## Transactions -/

/-- Messages, in order, and the signatures of the accounts that authorised them. -/
structure Transaction where
  messages : List Message
  signatures : List TxSignature
deriving DecidableEq

namespace Transaction

/-- The messages, then the signatures. -/
def format : Format Transaction :=
  ((Format.list Message.format).pair (Format.list TxSignature.format)).map
    (fun x => ⟨x.1, x.2⟩) (fun tx => (tx.messages, tx.signatures))

/-- The messages and the signatures can be written. -/
structure Fits (tx : Transaction) : Prop where
  messages_length : tx.messages.length < UInt32.size
  messages : ∀ m ∈ tx.messages, m.Fits
  signatures_length : tx.signatures.length < UInt32.size

instance (tx : Transaction) : Decidable tx.Fits :=
  decidable_of_iff
    (tx.messages.length < UInt32.size ∧ (∀ m ∈ tx.messages, m.Fits) ∧
      tx.signatures.length < UInt32.size)
    ⟨fun h => ⟨h.1, h.2.1, h.2.2⟩, fun h => ⟨h.messages_length, h.messages, h.signatures_length⟩⟩

/-- The bytes of the transaction, unless it is too long to have any. -/
def write (tx : Transaction) : Except String Bytes := format.write Fits tx

/-- The bytes that a signature of these messages is over. -/
def signBytesOf (messages : List Message) : Bytes := (Format.list Message.format).encode messages

/-- The bytes that every signature of the transaction is over. -/
def signBytes (tx : Transaction) : Bytes := signBytesOf tx.messages

/-- The transaction of these messages, signed by the holder of each seed in turn. -/
def sign (messages : List Message) (seeds : List (Octets 32)) : Transaction :=
  ⟨messages, seeds.map fun seed =>
    ⟨Ed25519.publicBytes seed, ⟨Ed25519.sign seed (signBytesOf messages)⟩⟩⟩

/-- The signed transaction, unless the messages are too long to be signed. -/
def trySign (messages : List Message) (seeds : List (Octets 32)) : Except String Transaction :=
  match (Format.list Message.format).write Message.AllFit messages with
  | .error reason => .error reason
  | .ok _ => .ok (sign messages seeds)

/-- The bids among the messages, in order. -/
def bids (tx : Transaction) : List Bid := tx.messages.filterMap Message.bid?

theorem Fits.bids {tx : Transaction} (htx : tx.Fits) : ∀ b ∈ tx.bids, b.Fits := by
  intro b hb
  obtain ⟨m, hm, hbid⟩ := List.mem_filterMap.1 hb
  have hfits := htx.messages m hm
  cases m with
  | bid a => cases hbid; exact hfits
  | foreign m => cases hbid

/-- The accounts whose signatures verify, in the order of the signatures. There are none if the
messages are too long to be signed. -/
def verifiedSigners (tx : Transaction) : List Signer :=
  if Message.AllFit tx.messages then tx.signatures.filterMap (TxSignature.signer? tx.signBytes)
  else []

/-- The hash that the transaction is known by. -/
def hash (tx : Transaction) : TxHash := ⟨sha256 (format.encode tx)⟩

/-- The hash of the transaction, unless it is too long to have one. -/
def computeHash (tx : Transaction) : Except String TxHash :=
  match tx.write with
  | .error reason => .error reason
  | .ok bytes => .ok ⟨sha256 bytes⟩

theorem computeHash_of_fits {tx : Transaction} (htx : tx.Fits) : tx.computeHash = .ok tx.hash := by
  rw [computeHash, write, Format.write_of_fits htx]
  rfl

theorem computeHash_of_not_fits {tx : Transaction} (htx : ¬ tx.Fits) :
    tx.computeHash = .error Format.tooLong := by
  rw [computeHash, write, Format.write_of_not_fits htx]

theorem computeHash_eq_ok_iff {tx : Transaction} {hash : TxHash} :
    tx.computeHash = .ok hash ↔ tx.Fits ∧ hash = tx.hash := by
  by_cases htx : tx.Fits
  · simp [computeHash_of_fits htx, htx, eq_comm]
  · simp [computeHash_of_not_fits htx, htx]

end Transaction

end BidQuorum
