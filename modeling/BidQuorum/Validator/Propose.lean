import BidQuorum.Validator.Basic
import BidQuorum.Proposal.Aggregate
import BidQuorum.Proposal.Selection
import BidQuorum.Proposal.Verdict

set_option autoImplicit false

/-! # Preparing and deciding on proposals

The proposer of a height puts the special transaction first, where the settings call for one, and
then as many of the ready transactions as the size limit allows, reshaped by its proposal builder if
it has one that is to be used. The special transaction counts towards the size but is not itself
held to the limit. Preparing never fails: whatever could not be used is reported.

Deciding on a proposal is a matter of its bytes alone. -/

namespace BidQuorum.Validator

variable {σ : Type}

/-- The transactions to propose, and what had to be left out in choosing them: those of the builder,
or the ready transactions if there is no builder to be used or it fails. -/
def proposedTxs (v : Validator σ) (height : Height) :
    Action σ (List Transaction × List SkippedItem) := do
  let ready := (← Action.mempool).readyTxs
  match v.builder with
  | none => return (ready, [])
  | some build =>
      if v.settings.runProposalBuilder then
        match ← build height ready with
        | .ok txs => return (txs, [])
        | .error reason =>
            Action.logLine .error s!"Proposal builder failed at height {height}: {reason}"
            return (ready, [.builderFailure reason])
      else return (ready, [])

/-- The special transaction with its bytes, where the settings call for one, and what had to be left
out of it. If it cannot be written, it is left out itself. -/
def specialTx (v : Validator σ) (height : Height) (votes : List ExtendedVote) :
    Action σ (Option (SpecialTransaction × Bytes) × List SkippedItem) := do
  if v.settings.carriesSpecialTx height then
    let a := Aggregate.ofVotes height votes []
    match a.special.write with
    | .ok bytes => return (some (a.special, bytes), a.skipped)
    | .error reason =>
        Action.logLine .error s!"Unable to serialize special transaction: {reason}"
        return (none, a.skipped ++ [.specialTransaction reason])
  else return (none, [])

/-- The selection before any transaction is offered to it: the special transaction, if there is one,
and what had to be left out so far. -/
def startSelection (special : Option (SpecialTransaction × Bytes)) (skipped : List SkippedItem) :
    Selection :=
  match special with
  | none => ⟨[], 0, skipped⟩
  | some (_, bytes) => ⟨[bytes], bytes.length, skipped⟩

/-- Prepare a proposal for `height` from the votes of the height before. -/
def prepare (v : Validator σ) (height : Height) (votes : List ExtendedVote) :
    Action σ PreparedProposal := do
  let special ← v.specialTx height votes
  let chosen ← v.proposedTxs height
  let s := (startSelection special.1 (special.2 ++ chosen.2)).offerAll v.codec
    v.settings.maxTxBytes chosen.1
  Action.publishAll (s.skipped.map fun item => .validator (.skippedItem height item))
  Action.publish (.validator (.preparedProposal height (special.1.map (·.1.bids.length))
    s.txs.length s.skipped.length))
  return ⟨s.txs, s.skipped⟩

/-- Decide on a proposal for `height`. -/
def process (v : Validator σ) (height : Height) (txs : List Bytes) : Action σ ProposalStatus := do
  let verdict := Verdict.onProposal v.settings v.codec height txs
  Action.report verdict.log
  Action.publish (.validator (.processedProposal txs.length verdict.status))
  return verdict.status

end BidQuorum.Validator
