import BidQuorum.Proposal
import BidQuorum.VoteExtension

set_option autoImplicit false

/-! # Aggregating vote extensions

The proposer of a height gathers the bids of the vote extensions made at the height before into the
special transaction, in the order of the votes. A vote without an extension is passed over. An
extension that cannot be read, or was made at another height, adds no bids and is reported. -/

namespace BidQuorum

/-- The special transaction so far, and what had to be left out of it. -/
structure Aggregate where
  special : SpecialTransaction
  skipped : List SkippedItem
deriving DecidableEq

namespace Aggregate

/-- The aggregate with one more vote. -/
def add (a : Aggregate) (vote : ExtendedVote) : Aggregate :=
  if vote.extension.isEmpty then a
  else
    match VoteExtension.ofBytes vote.extension with
    | .error e =>
        { a with skipped := a.skipped ++ [.malformedExtension vote.validator e.message] }
    | .ok extension =>
        if extension.height = a.special.height then
          { a with special := { a.special with bids := a.special.bids ++ extension.bids } }
        else
          { a with skipped := a.skipped ++ [.heightMismatch vote.validator extension.height] }

/-- The aggregate of the votes that the proposer of `height` collected, after what was left out
already. -/
def ofVotes (height : Height) (votes : List ExtendedVote) (skipped : List SkippedItem) :
    Aggregate :=
  votes.foldl add ⟨⟨height.previous, []⟩, skipped⟩

end Aggregate

end BidQuorum
