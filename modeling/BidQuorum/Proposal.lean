import BidQuorum.Transaction
import BidQuorum.Height

set_option autoImplicit false

/-! # Proposals

A proposal is a list of byte strings. From a configured height on the first of them is the special
transaction, which carries the bids that the validators witnessed at the height before, the
reference bids. The others are transactions, in the application's codec. -/

namespace BidQuorum

/-! ## The special transaction -/

/-- The transaction that a proposer places first: the bids of the vote extensions made at
`height`. -/
structure SpecialTransaction where
  height : Height
  /-- The canonical bytes of the bids. -/
  bids : List Bytes
deriving DecidableEq

namespace SpecialTransaction

/-- The height, then the bids. -/
def format : Format SpecialTransaction :=
  (Height.format.pair (Format.list Format.blob)).map (fun x => ⟨x.1, x.2⟩)
    (fun s => (s.height, s.bids))

/-- The bids, and each of them, can be written. -/
structure Fits (s : SpecialTransaction) : Prop where
  length : s.bids.length < UInt32.size
  bids : ∀ b ∈ s.bids, b.length < UInt32.size

instance (s : SpecialTransaction) : Decidable s.Fits :=
  decidable_of_iff (s.bids.length < UInt32.size ∧ ∀ b ∈ s.bids, b.length < UInt32.size)
    ⟨fun h => ⟨h.1, h.2⟩, fun h => ⟨h.length, h.bids⟩⟩

def toBytes (s : SpecialTransaction) : Bytes := format.encode s

/-- The bytes of the special transaction, unless it is too long to have any. -/
def write (s : SpecialTransaction) : Except String Bytes := format.write Fits s

def ofBytes (bytes : Bytes) : Except DecodeError SpecialTransaction := format.decode bytes

/-- The bids with the given canonical bytes, or the first error among them. -/
def decodeAll : List Bytes → Except DecodeError (List Bid)
  | [] => .ok []
  | bytes :: rest =>
      match Bid.ofCanonicalBytes bytes with
      | .error e => .error e
      | .ok bid =>
          match decodeAll rest with
          | .error e => .error e
          | .ok bids => .ok (bid :: bids)

/-- The reference bids. -/
def decodeBids (s : SpecialTransaction) : Except DecodeError (List Bid) := decodeAll s.bids

end SpecialTransaction

/-! ## What goes into a proposal -/

/-- A vote of the previous height, with the vote extension it carried, or nothing. -/
structure ExtendedVote where
  validator : Octets 32
  extension : Bytes
deriving DecidableEq

/-- Something that could not be used, and was left out of a proposal instead of failing it. -/
inductive SkippedItem where
  /-- A vote extension could not be read. -/
  | malformedExtension (validator : Octets 32) (reason : String)
  /-- A vote extension was made at another height than the previous one. -/
  | heightMismatch (validator : Octets 32) (height : Height)
  /-- The special transaction could not be written. -/
  | specialTransaction (reason : String)
  /-- The proposal builder failed; the ready transactions are proposed as they are. -/
  | builderFailure (reason : String)
  /-- A transaction could not be encoded. -/
  | unencodable (hash : Option TxHash) (reason : String)
  /-- With the transaction the proposal would have been too large. -/
  | tooLarge (hash : Option TxHash) (size : Nat)
deriving DecidableEq

namespace SkippedItem

/-- The first digits of a hash, or a dash where it is not known. -/
def shortHash : Option TxHash → String
  | none => "-"
  | some hash => hash.short

def message : SkippedItem → String
  | malformedExtension validator reason =>
      s!"malformed vote extension from {Base64.short validator.bytes}: {reason}"
  | heightMismatch validator height =>
      s!"vote extension from {Base64.short validator.bytes} is for height {height}"
  | specialTransaction reason => s!"special transaction: {reason}"
  | builderFailure reason => s!"proposal builder: {reason}"
  | unencodable hash reason => s!"transaction {shortHash hash}: {reason}"
  | tooLarge hash size =>
      s!"transaction {shortHash hash} of {size} bytes exceeds max tx bytes"

end SkippedItem

/-- The byte strings to propose, and what was left out on the way, in the order it was met. -/
structure PreparedProposal where
  txs : List Bytes
  skipped : List SkippedItem
deriving DecidableEq

/-- Whether a validator accepts a proposal. -/
inductive ProposalStatus where
  | accept
  | reject
deriving DecidableEq

def ProposalStatus.name : ProposalStatus → String
  | accept => "Accept"
  | reject => "Reject"

end BidQuorum
