import BidQuorum.Mempool.Basic
import BidQuorum.VoteExtension
import BidQuorum.Proposal
import BidQuorum.Text.Quoted
import BidQuorum.Log

set_option autoImplicit false

/-! # Events

What the mempool and the validators report about completed work. Events are observed by handlers
and written to the log; nothing in the work itself depends on them. -/

namespace BidQuorum

/-- What a validator reports. -/
inductive ValidatorEvent where
  /-- A vote extension was made, with this many bids, contributions under these keys and this many
  transactions promoted. -/
  | extendedVote (height : Height) (bids : Nat) (keys : List String) (promoted : Nat)
  /-- A peer's vote extension was checked; the height is absent if it could not be read. -/
  | verifiedExtension (height : Option Height) (status : VerifyStatus)
  /-- A proposal was prepared. The number of reference bids is absent if it carries no special
  transaction. -/
  | preparedProposal (height : Height) (specialTxBids : Option Nat) (txs skipped : Nat)
  /-- A proposal of this many byte strings was decided on. -/
  | processedProposal (txs : Nat) (status : ProposalStatus)
  /-- An item was left out of a proposal. -/
  | skippedItem (height : Height) (item : SkippedItem)
deriving DecidableEq

inductive Event where
  | pool (event : PoolEvent)
  | validator (event : ValidatorEvent)
deriving DecidableEq

/-! ## Kinds of events -/

/-- The kinds of events, for each of which a handler may be registered. -/
inductive EventKind where
  | insertTx
  | promoteTx
  | removeTx
  | extendVote
  | verifyVoteExtension
  | prepareProposal
  | processProposal
  | skipProposalItem
deriving DecidableEq

namespace EventKind

def all : List EventKind :=
  [insertTx, promoteTx, removeTx, extendVote, verifyVoteExtension, prepareProposal,
    processProposal, skipProposalItem]

def name : EventKind → String
  | insertTx => "InsertTx"
  | promoteTx => "PromoteTx"
  | removeTx => "RemoveTx"
  | extendVote => "ExtendVote"
  | verifyVoteExtension => "VerifyVoteExtension"
  | prepareProposal => "PrepareProposal"
  | processProposal => "ProcessProposal"
  | skipProposalItem => "SkipProposalItem"

end EventKind

def Event.kind : Event → EventKind
  | pool (.inserted ..) => .insertTx
  | pool (.promoted ..) => .promoteTx
  | pool (.removed ..) => .removeTx
  | validator (.extendedVote ..) => .extendVote
  | validator (.verifiedExtension ..) => .verifyVoteExtension
  | validator (.preparedProposal ..) => .prepareProposal
  | validator (.processedProposal ..) => .processProposal
  | validator (.skippedItem ..) => .skipProposalItem

/-! ## The log -/

namespace Event

/-- A value that may be absent, which a dash then stands for. -/
def orDash {α : Type} [ToString α] : Option α → String
  | none => "-"
  | some a => toString a

/-- The values that a log line gives of an event, after its name and time. -/
def values : Event → List String
  | pool (.inserted signer hash pending) => [signer.short, hash.short, toString pending]
  | pool (.promoted signer hash) => [signer.short, hash.short]
  | pool (.removed signer hash) => [signer.short, hash.short]
  | validator (.extendedVote height bids keys promoted) =>
      [toString height, toString bids, Quoted.list keys, toString promoted]
  | validator (.verifiedExtension height status) => [orDash height, status.name]
  | validator (.preparedProposal height specialTxBids txs skipped) =>
      [toString height, orDash specialTxBids, toString txs, toString skipped]
  | validator (.processedProposal txs status) => [toString txs, status.name]
  | validator (.skippedItem height item) => [toString height, item.message]

/-- The log line of an event that happened at `time`: its name, the time and its values, separated
by commas. An item left out of a proposal is worth a warning. -/
def logRecord (time : String) (e : Event) : LogRecord where
  level := if e.kind = .skipProposalItem then .warn else .info
  text := ", ".intercalate (e.kind.name :: time :: e.values)

end Event

end BidQuorum
