import BidQuorum.Proposal
import BidQuorum.TxCodec

set_option autoImplicit false

/-! # Selecting transactions

Transactions go into a proposal in order, as long as the total size allows. One that cannot be
encoded, or would exceed the limit, is reported and left out; those after it still have their
chance. -/

namespace BidQuorum

/-- The byte strings selected so far, their total size, and what was left out. -/
structure Selection where
  txs : List Bytes
  used : Nat
  skipped : List SkippedItem
deriving DecidableEq

namespace Selection

/-- Whether `size` more bytes are within the limit. -/
def fits (limit : Option UInt64) (s : Selection) (size : Nat) : Bool :=
  match limit with
  | none => true
  | some limit => s.used + size ≤ limit.toNat

/-- The selection with `bytes` at the end. -/
def append (s : Selection) (bytes : Bytes) : Selection :=
  { s with txs := s.txs ++ [bytes], used := s.used + bytes.length }

def skip (s : Selection) (item : SkippedItem) : Selection :=
  { s with skipped := s.skipped ++ [item] }

/-- The selection after a transaction has been offered to it. -/
def offer (codec : TxCodec) (limit : Option UInt64) (s : Selection) (tx : Transaction) :
    Selection :=
  match codec.encode tx with
  | .error e => s.skip (.unencodable tx.computeHash.toOption e.message)
  | .ok bytes =>
      if s.fits limit bytes.length then s.append bytes
      else s.skip (.tooLarge tx.computeHash.toOption bytes.length)

/-- The selection after all the transactions have been offered to it in order. -/
def offerAll (s : Selection) (codec : TxCodec) (limit : Option UInt64) (txs : List Transaction) :
    Selection :=
  txs.foldl (offer codec limit) s

end Selection

end BidQuorum
