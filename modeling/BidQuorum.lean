import BidQuorum.Mempool.Cursor
import BidQuorum.Validator.Extend
import BidQuorum.Validator.Verify
import BidQuorum.Validator.Propose
import BidQuorum.Hub
import BidQuorum.Wire.Laws
import BidQuorum.Proofs.Mempool
import BidQuorum.Proofs.Action
import BidQuorum.Proofs.Extend
import BidQuorum.Proofs.Formats
import BidQuorum.Proofs.Selection
import BidQuorum.Proofs.Witness
import BidQuorum.Proofs.Tally
import BidQuorum.Proofs.Agreement
import BidQuorum.Proofs.Consultation
import BidQuorum.Proofs.Votes
import BidQuorum.Proofs.Attestation
import BidQuorum.Proofs.Canonicity
import BidQuorum.Proofs.Verdict
import BidQuorum.Proofs.VoteOrder
import BidQuorum.Proofs.Spread
import BidQuorum.Proofs.Drain
import BidQuorum.Proofs.Contribution
import BidQuorum.Proofs.Inspection
import BidQuorum.Proofs.TallyLaws
import BidQuorum.Proofs.Journal
import BidQuorum.Proofs.Observation
import BidQuorum.Proofs.Accounting
import BidQuorum.Proofs.Worker
import BidQuorum.Proofs.Delivery
import BidQuorum.Proofs.Receiver
import BidQuorum.Proofs.Boundaries
import BidQuorum.Proofs.Aggregate
import BidQuorum.Proofs.Recount
import BidQuorum.Proofs.Naming
import BidQuorum.Proofs.Removal
import BidQuorum.Proofs.Signers
import BidQuorum.Proofs.Bookkeeping
import BidQuorum.Proofs.Cursor
