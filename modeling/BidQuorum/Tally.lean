import Std.Data.TreeMap
import BidQuorum.TxCodec
import BidQuorum.Log

set_option autoImplicit false

/-! # The tally

A proposer could try to bring in a bid that no other validator has seen. So every validator counts
how often each bid of a proposal occurs among the reference bids, and asks that this is at least
half of their number, rounded down. Bids are counted under their canonical bytes. -/

namespace BidQuorum

/-! ## Counting -/

/-- How often each bid occurs in a list, under its canonical bytes. -/
abbrev BidCounts := Std.TreeMap Bytes Nat

namespace BidCounts

/-- The number of occurrences of a bid. -/
def count (counts : BidCounts) (bid : Bid) : Nat := counts.getD bid.canonicalBytes 0

/-- The counts with one more occurrence of a bid. -/
def add (counts : BidCounts) (bid : Bid) : BidCounts :=
  counts.insert bid.canonicalBytes (counts.count bid + 1)

def ofList (bids : List Bid) : BidCounts := bids.foldl add ∅

end BidCounts

/-! ## The result of a tally -/

/-- The ways a tally can fail to reach a result. -/
inductive TallyError where
  /-- A transaction of the proposal could not be decoded. -/
  | undecodable (error : CodecError)
  /-- A bid has no canonical bytes. -/
  | unencodable (reason : String)
deriving DecidableEq

def TallyError.message : TallyError → String
  | undecodable error => error.message
  | unencodable reason => s!"failed to encode bid: {reason}"

structure BidTally where
  /-- The number of reference bids. -/
  total : Nat
  /-- How often a bid must occur among them to be valid. -/
  threshold : Nat
  /-- The bids of the proposal, in order, each with the number of its occurrences. -/
  frequencies : List (Bid × Nat)
deriving DecidableEq

namespace BidTally

/-- The bids that occur too rarely, with their frequencies. -/
def rare (t : BidTally) : List (Bid × Nat) := t.frequencies.filter fun x => x.2 < t.threshold

/-- The bids that occur too rarely. -/
def invalidBids (t : BidTally) : List Bid := t.rare.map Prod.fst

def isValid (t : BidTally) : Bool := t.invalidBids.isEmpty

/-- A warning for a bid that occurs too rarely. -/
def warning (t : BidTally) (x : Bid × Nat) : LogRecord :=
  ⟨.warn, s!"Detected invalid proposal bid for {x.1.name} by {x.1.owner}: frequency {x.2} " ++
    s!"below threshold {t.threshold}"⟩

end BidTally

/-! ## Taking a tally -/

/-- The bids of the transactions, in order, or the error of the first one that cannot be decoded. -/
def TxCodec.decodeBids (codec : TxCodec) : List Bytes → Except CodecError (List Bid)
  | [] => .ok []
  | bytes :: rest =>
      match codec.decode bytes with
      | .error e => .error e
      | .ok tx =>
          match codec.decodeBids rest with
          | .error e => .error e
          | .ok bids => .ok (tx.bids ++ bids)

/-- Count each bid of the transactions among the reference bids. A bid that is too long to be written
cannot be counted. -/
def tally (codec : TxCodec) (reference : List Bid) (txs : List Bytes) :
    Except TallyError BidTally :=
  match codec.decodeBids txs with
  | .error e => .error (.undecodable e)
  | .ok bids =>
      if ∀ bid ∈ reference ++ bids, bid.Fits then
        let counts := BidCounts.ofList reference
        .ok ⟨reference.length, reference.length / 2, bids.map fun bid => (bid, counts.count bid)⟩
      else .error (.unencodable Format.tooLong)

/-- What taking a tally writes to the log: the transaction that could not be decoded, or each bid
that occurs too rarely. -/
def tallyLog : Except TallyError BidTally → List LogRecord
  | .ok t => t.rare.map t.warning
  | .error (.undecodable e) => [⟨.error, s!"Unable to decode proposal transaction: {e.message}"⟩]
  | .error (.unencodable _) => []

/-- Whether every bid of the transactions occurs often enough among the reference bids. -/
def validateBids (codec : TxCodec) (reference : List Bid) (txs : List Bytes) :
    Except TallyError Bool :=
  match tally codec reference txs with
  | .error e => .error e
  | .ok t => .ok t.isValid

end BidQuorum
