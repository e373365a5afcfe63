import BidQuorum.Height
import BidQuorum.Bid

set_option autoImplicit false

/-! # Vote extensions

What a validator attaches to its vote at a height: the canonical bytes of every bid it witnessed,
and under the key of each of its subscribers the bytes that the subscriber contributed. -/

namespace BidQuorum

structure VoteExtension where
  height : Height
  /-- The canonical bytes of the witnessed bids. -/
  bids : List Bytes
  /-- What each subscriber contributed, under its key. -/
  extraInfo : TextMap Bytes
deriving DecidableEq

namespace VoteExtension

/-- The height, the bids, then the contributions in the order of their keys. -/
def format : Format VoteExtension :=
  (Height.format.pair ((Format.list Format.blob).pair (Format.textMap Format.blob))).map
    (fun x => ⟨x.1, x.2.1, x.2.2⟩) (fun v => (v.height, v.bids, v.extraInfo))

/-- The bids, the contributions, and each of them, can be written. -/
structure Fits (v : VoteExtension) : Prop where
  bids_length : v.bids.length < UInt32.size
  bids : ∀ b ∈ v.bids, b.length < UInt32.size
  extraInfo_length : v.extraInfo.entries.length < UInt32.size
  extraInfo : ∀ x ∈ v.extraInfo.entries, Format.FitsText x.1 ∧ x.2.length < UInt32.size

instance (v : VoteExtension) : Decidable v.Fits :=
  decidable_of_iff
    (v.bids.length < UInt32.size ∧ (∀ b ∈ v.bids, b.length < UInt32.size) ∧
      v.extraInfo.entries.length < UInt32.size ∧
      ∀ x ∈ v.extraInfo.entries, Format.FitsText x.1 ∧ x.2.length < UInt32.size)
    ⟨fun h => ⟨h.1, h.2.1, h.2.2.1, h.2.2.2⟩,
      fun h => ⟨h.bids_length, h.bids, h.extraInfo_length, h.extraInfo⟩⟩

/-- The payload of a vote. -/
def toBytes (v : VoteExtension) : Bytes := format.encode v

/-- The payload of a vote, unless the extension is too long to have one. -/
def write (v : VoteExtension) : Except String Bytes := format.write Fits v

/-- The extension that a vote's payload holds. -/
def ofBytes (bytes : Bytes) : Except DecodeError VoteExtension := format.decode bytes

end VoteExtension

/-- The way making a vote extension can fail, with the reason. -/
inductive ExtendError where
  /-- The extension could not be written. -/
  | unwritable (reason : String)
deriving DecidableEq

def ExtendError.message : ExtendError → String
  | unwritable reason => s!"failed to serialize vote extension: {reason}"

/-- The outcome of checking a vote extension, or a part of one. -/
inductive VerifyStatus where
  /-- The content is valid. -/
  | accept
  /-- The content is invalid. -/
  | reject
  /-- It could not be determined whether the content is valid. -/
  | unknown
deriving DecidableEq

def VerifyStatus.name : VerifyStatus → String
  | accept => "Accept"
  | reject => "Reject"
  | unknown => "Unknown"

end BidQuorum
