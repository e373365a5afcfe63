import BidQuorum.Proposal
import BidQuorum.Settings
import BidQuorum.Tally

set_option autoImplicit false

/-! # Judging proposals

Every validator decides on a proposal by itself. An empty proposal is accepted, and so is one whose
special transaction carries no bids. Otherwise the bids of the transactions are tallied against the
reference bids, and whatever stands in the way of that is a reason to reject, except that the first
byte string may fail to be a special transaction where the settings allow it. -/

namespace BidQuorum

/-- A decision, and what it writes to the log. -/
structure Verdict where
  status : ProposalStatus
  log : List LogRecord := []
deriving DecidableEq

namespace Verdict

/-- The verdict on transactions whose bids are measured against the given reference bids. -/
def ofTally (height : Height) (result : Except TallyError BidTally) : Verdict :=
  match result with
  | .ok t => ⟨if t.isValid then .accept else .reject, tallyLog result⟩
  | .error e =>
      ⟨.reject, tallyLog result ++
        [⟨.warn, s!"Rejecting proposal at height {height} whose bids cannot be validated: " ++
          e.message⟩]⟩

/-- The verdict on transactions that follow a special transaction. -/
def ofSpecial (codec : TxCodec) (height : Height) (special : SpecialTransaction)
    (txs : List Bytes) : Verdict :=
  if special.bids.isEmpty then ⟨.accept, []⟩
  else
    match special.decodeBids with
    | .error e =>
        ⟨.reject, [⟨.warn, s!"Rejecting proposal at height {height} with undecodable reference " ++
          s!"bids: {e.message}"⟩]⟩
    | .ok reference => ofTally height (tally codec reference txs)

/-- The verdict on a proposal whose first byte string is no special transaction. -/
def withoutSpecial (settings : Settings) (height : Height) (e : DecodeError) : Verdict :=
  if settings.rejectMalformedSpecialTx && settings.carriesSpecialTx height then
    ⟨.reject, [⟨.warn, s!"Rejecting proposal at height {height} with malformed special " ++
      s!"transaction: {e.message}"⟩]⟩
  else
    ⟨.accept, [⟨.debug, s!"First transaction of proposal at height {height} is not a special " ++
      s!"transaction: {e.message}"⟩]⟩

/-- The verdict on a proposal for `height`. -/
def onProposal (settings : Settings) (codec : TxCodec) (height : Height) : List Bytes → Verdict
  | [] => ⟨.accept, []⟩
  | first :: rest =>
      match SpecialTransaction.ofBytes first with
      | .error e => withoutSpecial settings height e
      | .ok special => ofSpecial codec height special rest

end Verdict

end BidQuorum
