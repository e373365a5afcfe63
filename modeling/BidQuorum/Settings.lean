import BidQuorum.Height

set_option autoImplicit false

/-! # Settings

The parameters of a validator. A vote extension is available to a proposer only at the height after
the one it was made at, and the first heights of a chain have none before them; so proposals carry
a special transaction only from a configured height on. -/

namespace BidQuorum

structure Settings where
  /-- The lowest height whose proposals carry a special transaction. -/
  specialTxMinHeight : Height := ⟨3⟩
  /-- Whether ready transactions pass through the proposal builder. -/
  runProposalBuilder : Bool := false
  /-- Whether a proposal is rejected for lacking a readable special transaction at a height that
  always carries one. Otherwise it is accepted, which favours liveness. -/
  rejectMalformedSpecialTx : Bool := false
  /-- The greatest total size of a proposal's transactions, in bytes; no limit if absent. -/
  maxTxBytes : Option UInt64 := none
  /-- Whether every event is logged. -/
  logEvents : Bool := true
deriving DecidableEq

namespace Settings

/-- Whether a proposal at this height carries a special transaction. -/
def carriesSpecialTx (s : Settings) (height : Height) : Bool := s.specialTxMinHeight ≤ height

end Settings

end BidQuorum
