import BidQuorum.Proofs.Aggregate
import BidQuorum.Proofs.Agreement
import BidQuorum.Proofs.Witness

set_option autoImplicit false

/-! # From pending pools to the special transaction

What becomes of the bids that validators witness: each vote brings the bids of its extension, the
proposer puts those of all votes one behind the other, and whoever decides on the proposal reads them
back and counts among them. The main statement, `bids_reach_special_transaction`, follows them all the
way: nothing is lost, repeated or moved on it, whatever the modules of the validators do meanwhile.

Two facts carry it. The fold over the votes is a concatenation (`Aggregate.ofVotes_eq`), and a pass
over the pending transactions gathers their bids even where promoting fails
(`Validator.bids_attached`), since it goes over the transactions as they were at its start. -/

namespace BidQuorum

/-! ## What is reported -/

/-- Whether an item that was left out is a vote extension. -/
def SkippedItem.isExtension : SkippedItem → Bool
  | malformedExtension .. | heightMismatch .. => true
  | _ => false

/-- Collecting votes reports vote extensions only. -/
theorem isExtension_of_mem_leftOut (height : Height) (votes : List ExtendedVote) :
    ∀ item ∈ votes.filterMap (ExtendedVote.leftOut? height), item.isExtension = true := by
  intro item hitem
  obtain ⟨vote, -, hleft⟩ := List.mem_filterMap.1 hitem
  unfold ExtendedVote.leftOut? at hleft
  grind [SkippedItem.isExtension]

/-- Of a transaction that is left out, no extension is reported. -/
theorem Fate.AllDue.isExtension_of_mem_reported {codec : TxCodec} {limit : Option UInt64}
    {already : List Bytes} {txs : List Transaction} {fates : List Fate}
    (h : AllDue codec limit already txs fates) :
    ∀ item ∈ fates.flatMap reported, item.isExtension = false := by
  induction h with
  | nil => nofun
  | cons first rest ih =>
      intro item hitem
      rw [List.flatMap_cons] at hitem
      refine (List.mem_append.1 hitem).elim (fun hitem => ?_) (ih item)
      cases first with
      | included encoded within => cases hitem
      | unencodable refused => rw [List.mem_singleton.1 hitem]; rfl
      | tooLarge encoded beyond => rw [List.mem_singleton.1 hitem]; rfl

namespace Validator

variable {σ : Type} {v : Validator σ}

theorem isExtension_of_mem_builderReport (v : Validator σ) (height : Height) (s : Site σ) :
    ∀ item ∈ v.builderReport height s, item.isExtension = false := by
  rw [builderReport]
  split
  · exact List.forall_mem_singleton.2 rfl
  · exact List.forall_mem_nil _

/-- The extensions that a proposer reports, in the order of the votes, are those it cannot use. -/
theorem filter_skipped_prepare (v : Validator σ) {height : Height}
    (hheight : v.settings.specialTxMinHeight ≤ height) (votes : List ExtendedVote) (s : Site σ) :
    (v.prepare height votes s).1.skipped.filter SkippedItem.isExtension
      = votes.filterMap (ExtendedVote.leftOut? height.previous) := by
  obtain ⟨fates, hfates, -, hskipped⟩ := v.exists_fates height votes s
  have hall := isExtension_of_mem_leftOut height.previous votes
  have hvotes : (v.votesReport height votes).filter SkippedItem.isExtension
      = votes.filterMap (ExtendedVote.leftOut? height.previous) := by
    rw [votesReport, if_pos hheight, Aggregate.ofVotes_eq, List.nil_append, List.filter_append,
      List.filter_eq_self.2 hall]
    split <;> exact List.append_nil _
  have hbuilder := v.isExtension_of_mem_builderReport height (v.afterVotes height votes s)
  have htxs := hfates.isExtension_of_mem_reported
  rw [hskipped, List.filter_append, List.filter_append, hvotes,
    List.filter_eq_nil_iff.2 fun item hitem => ne_true_of_eq_false (hbuilder item hitem),
    List.filter_eq_nil_iff.2 fun item hitem => ne_true_of_eq_false (htxs item hitem),
    List.append_nil, List.append_nil]

end Validator

/-! ## Those who vote -/

/-- A validator about to extend its vote at a site; the others know it by its key. -/
structure Voter (σ : Type) where
  key : Octets 32
  validator : Validator σ
  site : Site σ

namespace Voter

variable {σ : Type}

/-- The bids of its pending transactions, in order. -/
def bids (w : Voter σ) : List Bid := w.site.mempool.pendingTxs.flatMap Transaction.bids

/-- The extension that it makes for a height. -/
def extension (w : Voter σ) (height : Height) : VoteExtension := w.validator.attached height w.site

/-- Its vote at a height, with the payload that it makes. -/
def vote (w : Voter σ) (height : Height) : ExtendedVote :=
  ⟨w.key, (w.validator.extend height w.site).1⟩

/-- Neither its extension nor one of its bids is too long to be written. -/
structure Fits (w : Voter σ) (height : Height) : Prop where
  extension : (w.extension height).Fits
  bids : ∀ b ∈ w.bids, b.Fits

theorem bids_extension {w : Voter σ} (hbids : ∀ b ∈ w.bids, b.Fits) (height : Height) :
    (w.extension height).bids = w.bids.map Bid.canonicalBytes := by
  rw [extension, Validator.bids_attached _ _ hbids, bids, List.map_flatMap]
  rfl

theorem extension_vote {w : Voter σ} {height : Height} (hw : w.Fits height) :
    (w.vote height).extension = (w.extension height).toBytes := by
  rw [vote, Validator.extend_apply, Validator.extendVote_of_fits hw.extension]
  rfl

/-- What is read of votes are the extensions of those who cast them. -/
theorem ofBytes_votes {voters : List (Voter σ)} {height : Height}
    (hfits : ∀ w ∈ voters, w.Fits height) :
    (voters.map (·.vote height)).map (fun vote => VoteExtension.ofBytes vote.extension)
      = (voters.map (·.extension height)).map .ok := by
  rw [List.map_map, List.map_map]
  refine List.map_congr_left fun w hw => ?_
  rw [Function.comp_apply, Function.comp_apply, extension_vote (hfits w hw)]
  exact VoteExtension.ofBytes_toBytes (hfits w hw).extension

end Voter

/-! ## The height after -/

/-- The height directly above. The numbers end at the greatest one, and start again from zero. -/
def Height.next (h : Height) : Height := ⟨h.number + 1⟩

theorem Height.previous_next {h : Height} (hlast : h.number.toNat + 1 < 2 ^ 64) :
    h.next.previous = h := by
  have hnumber : (h.number + 1).toNat = h.number.toNat + 1 := by
    rw [UInt64.toNat_add, UInt64.toNat_one, Nat.mod_eq_of_lt hlast]
  have hpos : h.number + 1 ≠ 0 := fun hzero => by
    rw [hzero] at hnumber
    cases hnumber
  rw [previous, prev?, next, if_neg hpos, UInt64.add_sub_cancel]
  rfl

/-! ## All the way -/

section Journey

variable {σ τ ρ : Type}

/-- The extensions of voters are for the height that the proposer of the next one asks for. -/
theorem Voter.height_extension {voters : List (Voter σ)} {height : Height}
    (hlast : height.number.toNat + 1 < 2 ^ 64) :
    ∀ e ∈ voters.map (·.extension height), e.height = height.next.previous := by
  intro e he
  obtain ⟨w, -, rfl⟩ := List.mem_map.1 he
  exact (Height.previous_next hlast).symm

/-- What the proposer of the next height collects are the bids of all pending transactions. -/
theorem Aggregate.ofVotes_voters {voters : List (Voter σ)} {height : Height}
    (hlast : height.number.toNat + 1 < 2 ^ 64) (hfits : ∀ w ∈ voters, w.Fits height) :
    ofVotes height.next (voters.map (·.vote height)) []
      = ⟨⟨height, (voters.flatMap Voter.bids).map Bid.canonicalBytes⟩, []⟩ := by
  rw [ofVotes_of_read (Voter.ofBytes_votes hfits) (Voter.height_extension hlast),
    Height.previous_next hlast, List.map_flatMap, List.flatMap_map]
  have hbids : voters.flatMap (fun w => (w.extension height).bids)
      = voters.flatMap fun w => w.bids.map Bid.canonicalBytes :=
    List.flatMap_congr fun w hw => Voter.bids_extension (hfits w hw).bids height
  rw [hbids]

/-- **Bids reach the special transaction.** Validators extend their votes for a height, each with
what is pending at its site, and the proposer of the next height gets the payloads in order. The first
byte string of its proposal is then read as a special transaction for that height, from which exactly
the bids of all those pending transactions are decoded: voter by voter, transaction by transaction,
message by message. No extension is reported as left out. Whoever decides on the proposal measures the
rest of it against these bids, and counts each bid as often as it occurs in the drained transactions. -/
theorem bids_reach_special_transaction (voters : List (Voter σ)) (height : Height)
    (hlast : height.number.toNat + 1 < 2 ^ 64) (hfits : ∀ w ∈ voters, w.Fits height)
    (hlength : (voters.flatMap Voter.bids).length < 256 ^ 4) (proposer : Validator τ) (s : Site τ)
    (hheight : proposer.settings.specialTxMinHeight ≤ height.next) :
    let bids := voters.flatMap Voter.bids
    let proposal := (proposer.prepare height.next (voters.map (·.vote height)) s).1
    ∃ first rest special, proposal.txs = first :: rest ∧
      SpecialTransaction.ofBytes first = .ok special ∧ special.height = height ∧
      special.decodeBids = .ok bids ∧
      (∀ item ∈ proposal.skipped, item.isExtension = false) ∧
      ∀ (validator : Validator ρ) (s' : Site ρ),
        (bids ≠ [] → (validator.process height.next proposal.txs s').1
          = (Verdict.ofTally height.next (tally validator.codec bids rest)).status) ∧
        ∀ t, tally validator.codec bids rest = .ok t →
          ∀ x ∈ t.frequencies, x.1.Fits → x.2 = bids.count x.1 := by
  intro bids proposal
  have hbids : ∀ b ∈ bids, b.Fits := by
    intro b hb
    obtain ⟨w, hw, hbw⟩ := List.mem_flatMap.1 hb
    exact (hfits w hw).bids b hbw
  let special : SpecialTransaction := ⟨height, bids.map Bid.canonicalBytes⟩
  have hdecode : special.decodeBids = .ok bids :=
    SpecialTransaction.decodeAll_eq_ok_iff.2 ⟨rfl, hbids⟩
  -- The special transaction is the one of the collected bids, and is read back.
  have hcollected := Aggregate.ofVotes_voters hlast hfits
  have hshort : (Aggregate.ofVotes height.next (voters.map (·.vote height)) []).special.bids.length
      < 256 ^ 4 := by
    rw [hcollected, List.length_map]
    exact hlength
  have hread : SpecialTransaction.ofBytes special.toBytes = .ok special := by
    have hback := Aggregate.ofBytes_toBytes hshort
    rwa [hcollected] at hback
  obtain ⟨rest, htxs⟩ : ∃ rest, proposal.txs = special.toBytes :: rest := by
    obtain ⟨rest, -, htxs, -⟩ := proposer.prepare_of_fits height.next (voters.map (·.vote height)) s
      hheight (Aggregate.fits_special hshort)
    rw [hcollected] at htxs
    exact ⟨rest, htxs⟩
  refine ⟨_, rest, special, htxs, hread, rfl, hdecode, ?_, fun validator s' => ⟨fun hne => ?_, ?_⟩⟩
  · have hskipped := proposer.filter_skipped_prepare hheight (voters.map (·.vote height)) s
    rw [(ExtendedVote.used_of_read (Voter.ofBytes_votes hfits) (Voter.height_extension hlast)).2,
      List.filter_eq_nil_iff] at hskipped
    exact fun item hitem => Bool.eq_false_iff.2 (hskipped item hitem)
  · have hprocess : (validator.process height.next proposal.txs s').1
        = (Verdict.onProposal validator.settings validator.codec height.next proposal.txs).status :=
      rfl
    rw [hprocess, htxs, Verdict.onProposal, hread]
    simp only [Verdict.ofSpecial_of_decodeBids hdecode hne]
  · intro t ht x hx _
    exact count_of_mem_frequencies ht hx

/-- A validator without modules, about to vote at a site. -/
def plainVoter (key : UInt8) (site : Site Unit) : Voter Unit where
  key := ⟨List.replicate 32 key, List.length_replicate⟩
  validator := {}
  site := site

theorem bids_plainVoter (key : UInt8) {site : Site Unit} {tx : Transaction}
    (hpending : site.mempool.pendingTxs = [tx]) : (plainVoter key site).bids = tx.bids := by
  rw [Voter.bids, plainVoter, hpending]
  exact List.flatMap_singleton _ _

theorem fits_plainVoter {key : UInt8} {site : Site Unit} {tx : Transaction}
    (hpending : site.mempool.pendingTxs = [tx]) (hlength : tx.witness.length < 256 ^ 4)
    (hwitness : ∀ b ∈ tx.witness, b.length < 256 ^ 4) (hbids : ∀ b ∈ tx.bids, b.Fits)
    (height : Height) : (plainVoter key site).Fits height where
  extension := by
    rw [Voter.extension, Validator.attached_of_subscribers_eq_empty rfl height, plainVoter, hpending,
      List.flatMap_singleton]
    · exact ⟨hlength, hwitness, Nat.zero_lt_succ _, nofun⟩
    · rwa [plainVoter, hpending, List.flatMap_singleton]
  bids := by
    rw [bids_plainVoter key hpending]
    exact hbids

theorem bids_extension_plainVoter {key : UInt8} {site : Site Unit} {tx : Transaction}
    (hpending : site.mempool.pendingTxs = [tx]) (hbids : ∀ b ∈ tx.bids, b.Fits) (height : Height) :
    ((plainVoter key site).extension height).bids = tx.witness := by
  rw [← bids_plainVoter key hpending] at hbids
  rw [Voter.bids_extension hbids, bids_plainVoter key hpending]
  rfl

theorem bids_extension_plainVoter_signedBid (key : UInt8) (height : Height) :
    ((plainVoter key (insertedSite signedBid)).extension height).bids = signedBid.witness :=
  bids_extension_plainVoter pendingTxs_signedBid fits_oneBid.bids height

theorem fits_plainVoter_signedBid {key : UInt8} {site : Site Unit}
    (hpending : site.mempool.pendingTxs = [signedBid]) (height : Height) :
    (plainVoter key site).Fits height :=
  fits_plainVoter hpending (by decide) (by decide +kernel) fits_oneBid.bids height

/-- A bid that is pending at two validators is decoded twice from one special transaction. -/
theorem bids_reach_special_transaction_of_two_voters :
    let voters := [plainVoter 0 (insertedSite signedBid), plainVoter 1 (insertedSite signedBid)]
    let proposer : Validator Unit := {}
    ∃ first rest special,
      (proposer.prepare ⟨3⟩ (voters.map (·.vote ⟨2⟩)) freshSite).1.txs = first :: rest ∧
      SpecialTransaction.ofBytes first = .ok special ∧
      special.decodeBids = .ok (signedBid.bids ++ signedBid.bids) := by
  intro voters proposer
  have hfits : ∀ w ∈ voters, w.Fits ⟨2⟩ :=
    List.forall_mem_cons.2 ⟨fits_plainVoter_signedBid pendingTxs_signedBid _,
      List.forall_mem_singleton.2 (fits_plainVoter_signedBid pendingTxs_signedBid _)⟩
  have hbids : voters.flatMap Voter.bids = signedBid.bids ++ signedBid.bids := by
    rw [List.flatMap_cons, List.flatMap_singleton, bids_plainVoter _ pendingTxs_signedBid,
      bids_plainVoter _ pendingTxs_signedBid]
  obtain ⟨first, rest, special, htxs, hread, -, hdecode, -⟩ :=
    @bids_reach_special_transaction Unit Unit Unit voters ⟨2⟩ (by decide) hfits
      (by rw [hbids]; decide) proposer freshSite (by decide)
  have hnext : Height.next ⟨2⟩ = ⟨3⟩ := rfl
  rw [hbids] at hdecode
  rw [hnext] at htxs
  exact ⟨first, rest, special, htxs, hread, hdecode⟩

end Journey

end BidQuorum
