import BidQuorum.Wire.Sequence

set_option autoImplicit false

/-! # Bids

A bid in the auction of a name: its owner offers some coins for it, and says what the name is to
resolve to. Two bids are the same bid if they have the same canonical bytes; under these bytes bids
travel from vote extension to proposal, and are counted there. -/

namespace BidQuorum

/-- An amount of coins, below `2¹²⁸`. -/
abbrev Amount := BitVec 128

/-- An amount of one denomination. -/
structure Coin where
  denom : String
  amount : Amount
deriving DecidableEq

/-- The denomination, then the amount in sixteen bytes. -/
def Coin.format : Format Coin :=
  (Format.text.pair (Format.unsigned 16)).map (fun x => ⟨x.1, BitVec.ofNat 128 x.2⟩)
    (fun c => (c.denom, c.amount.toNat))

/-- The denomination can be written. -/
def Coin.Fits (c : Coin) : Prop := Format.FitsText c.denom

instance (c : Coin) : Decidable c.Fits := inferInstanceAs (Decidable (Format.FitsText c.denom))

/-- An offer of `amount` for `name`, which resolves to `resolveAddress` if the offer wins. -/
structure Bid where
  name : String
  resolveAddress : String
  owner : String
  amount : List Coin
deriving DecidableEq

namespace Bid

/-- The fields in order. -/
def format : Format Bid :=
  (Format.text.pair (Format.text.pair (Format.text.pair (Format.list Coin.format)))).map
    (fun x => ⟨x.1, x.2.1, x.2.2.1, x.2.2.2⟩)
    (fun b => (b.name, b.resolveAddress, b.owner, b.amount))

/-- Every text and the list in the bid are short enough to be written: their lengths can be counted
in four bytes. -/
structure Fits (b : Bid) : Prop where
  name : Format.FitsText b.name
  resolveAddress : Format.FitsText b.resolveAddress
  owner : Format.FitsText b.owner
  length : b.amount.length < UInt32.size
  amount : ∀ c ∈ b.amount, c.Fits

instance (b : Bid) : Decidable b.Fits :=
  decidable_of_iff
    (Format.FitsText b.name ∧ Format.FitsText b.resolveAddress ∧ Format.FitsText b.owner ∧
      b.amount.length < UInt32.size ∧ ∀ c ∈ b.amount, c.Fits)
    ⟨fun h => ⟨h.1, h.2.1, h.2.2.1, h.2.2.2.1, h.2.2.2.2⟩,
      fun h => ⟨h.name, h.resolveAddress, h.owner, h.length, h.amount⟩⟩

/-- The bytes a bid travels under and is counted under. -/
def canonicalBytes (b : Bid) : Bytes := format.encode b

/-- The canonical bytes, unless the bid is too long to have any. -/
def write (b : Bid) : Except String Bytes := format.write Fits b

/-- The bid with the given canonical bytes. -/
def ofCanonicalBytes (bytes : Bytes) : Except DecodeError Bid := format.decode bytes

end Bid

end BidQuorum
