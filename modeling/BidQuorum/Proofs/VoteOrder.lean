import BidQuorum.Proofs.Attestation
import BidQuorum.Proofs.Recount

set_option autoImplicit false

/-! # The order of the votes

A proposer lists the reference bids in the order in which it happened to collect the votes. Two
proposers that collected the same votes in different orders still make the same proposal, up to the
order of these bids and of the extensions that they report, and every validator decides on the two
alike (`process_prepare_of_perm`).

There are two places where the order could have come through. The special transaction counts towards
the size of the proposal, but its size is the same in every order
(`SpecialTransaction.length_toBytes_of_perm`), and nothing else of it matters for the selection
(`Selection.offerAll_behind`). Its bids are decoded one after the other and then counted, and neither
the success of the one nor the outcome of the other depends on the order
(`Verdict.status_ofSpecial_of_perm`). -/

namespace BidQuorum

/-! ## Special transactions -/

namespace SpecialTransaction

/-- The size of a special transaction does not depend on the order of its bids. -/
theorem length_toBytes_of_perm {a b : SpecialTransaction} (hheight : a.height = b.height)
    (hbids : a.bids.Perm b.bids) : a.toBytes.length = b.toBytes.length := by
  have hblobs : (a.bids.flatMap Format.blob.encode).Perm (b.bids.flatMap Format.blob.encode) :=
    hbids.flatMap_right _
  show (Height.format.encode a.height ++ (Format.length.encode a.bids.length ++
      a.bids.flatMap Format.blob.encode)).length
    = (Height.format.encode b.height ++ (Format.length.encode b.bids.length ++
      b.bids.flatMap Format.blob.encode)).length
  rw [hheight, hbids.length_eq, List.length_append, List.length_append, List.length_append,
    List.length_append, hblobs.length_eq]

/-- In another order, the same bids are decoded in another order. -/
theorem exists_decodeBids_of_perm {a b : SpecialTransaction} (hbids : a.bids.Perm b.bids)
    {reference : List Bid} (hdecode : b.decodeBids = .ok reference) :
    ∃ reference', a.decodeBids = .ok reference' ∧ reference'.Perm reference := by
  have hlists : ∀ bytes ∈ a.bids, IsBid bytes := fun bytes hbytes =>
    exists_decodeAll_iff.1 ⟨reference, hdecode⟩ bytes (hbids.subset hbytes)
  obtain ⟨reference', hdecode'⟩ := exists_decodeAll_iff.2 hlists
  refine ⟨reference', hdecode', ?_⟩
  -- What is read of the byte strings one by one is the same up to order.
  have hread := hbids.map Bid.ofCanonicalBytes
  rw [decodeAll_eq_ok_iff_map.1 hdecode, decodeAll_eq_ok_iff_map.1 hdecode'] at hread
  exact (List.map_perm_map_iff fun _ _ => Except.ok.inj).1 hread

end SpecialTransaction

/-! ## Verdicts -/

/-- The verdict behind a special transaction does not depend on the order of its bids. -/
theorem Verdict.status_ofSpecial_of_perm {a b : SpecialTransaction} (hbids : a.bids.Perm b.bids)
    (codec : TxCodec) (height : Height) (txs : List Bytes) :
    (ofSpecial codec height a txs).status = (ofSpecial codec height b txs).status := by
  unfold ofSpecial
  have hempty : a.bids.isEmpty = b.bids.isEmpty := hbids.isEmpty_eq
  rw [hempty]
  split
  · rfl
  · -- Decoding fails in every order or in none, if perhaps with another error.
    cases hb : b.decodeBids with
    | ok reference =>
        obtain ⟨reference', ha, hperm⟩ := SpecialTransaction.exists_decodeBids_of_perm hbids hb
        simp only [ha, tally_of_perm hperm]
    | error e =>
        cases ha : a.decodeBids with
        | error e' => rfl
        | ok reference =>
            obtain ⟨reference', hb', -⟩ :=
              SpecialTransaction.exists_decodeBids_of_perm hbids.symm ha
            rw [hb] at hb'
            cases hb'

/-- Proposals that differ in the order of the reference bids are decided on alike. -/
theorem Verdict.status_onProposal_of_perm {first first' : Bytes} {a b : SpecialTransaction}
    (hfirst : SpecialTransaction.ofBytes first = .ok a)
    (hfirst' : SpecialTransaction.ofBytes first' = .ok b) (hbids : a.bids.Perm b.bids)
    (settings : Settings) (codec : TxCodec) (height : Height) (rest : List Bytes) :
    (onProposal settings codec height (first :: rest)).status
      = (onProposal settings codec height (first' :: rest)).status := by
  rw [onProposal, onProposal, hfirst, hfirst']
  exact status_ofSpecial_of_perm hbids codec height rest

/-! ## Selections -/

namespace Selection

/-- The selection with byte strings and reports in front that do not take up any of the limit. -/
def behind (s : Selection) (front : List Bytes) (reported : List SkippedItem) : Selection :=
  { s with txs := front ++ s.txs, skipped := reported ++ s.skipped }

variable (s : Selection) (front : List Bytes) (reported : List SkippedItem) (codec : TxCodec)
  (limit : Option UInt64)

theorem offer_behind (tx : Transaction) :
    offer codec limit (s.behind front reported) tx
      = (offer codec limit s tx).behind front reported := by
  have hlimit : ∀ size, (s.behind front reported).fits limit size = s.fits limit size := fun _ => rfl
  unfold offer
  cases codec.encode tx with
  | error e => simp [behind, skip]
  | ok bytes =>
      simp only [hlimit]
      by_cases hfits : s.fits limit bytes.length
      · simp [hfits, behind, append]
      · simp [hfits, behind, skip]

/-- Offering transactions looks at the size so far, and not at what has it. -/
theorem offerAll_behind (txs : List Transaction) :
    (s.behind front reported).offerAll codec limit txs
      = (s.offerAll codec limit txs).behind front reported := by
  induction txs generalizing s with
  | nil => rfl
  | cons tx rest ih =>
      have hstep : ∀ s : Selection, s.offerAll codec limit (tx :: rest)
          = (offer codec limit s tx).offerAll codec limit rest := fun _ => rfl
      rw [hstep, hstep, offer_behind, ih]

end Selection

/-! ## Votes -/

/-- What is collected of the same votes in another order differs in its order only. -/
theorem Aggregate.ofVotes_of_perm {votes votes' : List ExtendedVote} (hvotes : votes.Perm votes')
    (height : Height) :
    (ofVotes height votes []).special.height = (ofVotes height votes' []).special.height ∧
      (ofVotes height votes []).special.bids.Perm (ofVotes height votes' []).special.bids ∧
      (ofVotes height votes []).skipped.Perm (ofVotes height votes' []).skipped := by
  rw [ofVotes_eq, ofVotes_eq]
  exact ⟨rfl, hvotes.flatMap_right _, hvotes.filterMap _⟩

/-- What is reported behind the votes starts where no vote extension is reported any more. -/
theorem Aggregate.dropWhile_skipped_append (height : Height) (votes : List ExtendedVote)
    (items : List SkippedItem) :
    ((ofVotes height votes []).skipped ++ items).dropWhile SkippedItem.isExtension
      = items.dropWhile SkippedItem.isExtension := by
  rw [ofVotes_eq]
  exact List.dropWhile_append_of_pos (isExtension_of_mem_leftOut height.previous votes)

/-- The proposal of what was collected, with what was selected behind it. -/
def Aggregate.proposal (a : Aggregate) (rest : Selection) : PreparedProposal :=
  ⟨a.special.toBytes :: rest.txs, a.skipped ++ rest.skipped⟩

namespace Validator

variable {σ : Type} {v : Validator σ}

/-- What the builder answers, if it is used, depends on the height and on the transactions only. -/
def BuildsFromInput (v : Validator σ) : Prop :=
  ∀ build, v.builder = some build → v.settings.runProposalBuilder →
    ∃ answer : Height → List Transaction → Except String (List Transaction),
      ∀ height txs s, (build height txs s).1 = answer height txs

/-- Wherever the same transactions are ready, the same ones are proposed. -/
theorem proposedTxs_of_mempool_eq (hv : v.BuildsFromInput) (height : Height) {s s' : Site σ}
    (hmempool : s.mempool = s'.mempool) :
    (v.proposedTxs height s).1 = (v.proposedTxs height s').1 := by
  have hbuilt : v.built? height s = v.built? height s' := by
    by_cases hwithout : v.WithoutBuilder
    · rw [built?_of_withoutBuilder v height s hwithout, built?_of_withoutBuilder v height s' hwithout]
    · obtain ⟨build, hbuild, hrun⟩ := exists_builder_of_not hwithout
      obtain ⟨answer, hanswer⟩ := hv build hbuild hrun
      rw [built?_of_builder v height s hbuild hrun, built?_of_builder v height s' hbuild hrun,
        hanswer, hanswer, hmempool]
  rw [(v.proposedTxs_spec height s).1, (v.proposedTxs_spec height s').1]
  simp only [candidates, builderReport, hbuilt, hmempool]

/-- What comes behind a special transaction of the given size. -/
def selectionBehind (v : Validator σ) (height : Height) (size : Nat) (s : Site σ) : Selection :=
  (Selection.mk [] size (v.proposedTxs height s).1.2).offerAll v.codec v.settings.maxTxBytes
    (v.proposedTxs height s).1.1

/-- Of the votes, a proposal depends on what is collected of them, and otherwise only on the size of
that, if it can be written. -/
theorem prepare_eq_proposal {height : Height} (hheight : v.settings.specialTxMinHeight ≤ height)
    {votes : List ExtendedVote} (hfits : (Aggregate.ofVotes height votes []).special.Fits)
    (s : Site σ) :
    let a := Aggregate.ofVotes height votes []
    (v.prepare height votes s).1
      = a.proposal (v.selectionBehind height a.special.toBytes.length s) := by
  intro a
  have hopening : v.opening height votes = [a.special.toBytes] := if_pos ⟨hheight, hfits⟩
  have hreport : v.votesReport height votes = a.skipped := by
    rw [votesReport, if_pos hheight, if_pos hfits, List.append_nil]
  have hstart : ∀ items, Selection.mk [a.special.toBytes] (totalSize [a.special.toBytes])
      (a.skipped ++ items)
        = (Selection.mk [] a.special.toBytes.length items).behind [a.special.toBytes] a.skipped := by
    intro items
    rw [totalSize_singleton]
    rfl
  rw [prepare_eq_selected, selected, v.afterVotes_eq height votes s fun _ => hfits, hopening, hreport,
    hstart, Selection.offerAll_behind, selectionBehind, (v.proposedTxs_spec height s).1]
  rfl

/-- Behind what is collected of the same votes, the same is selected. -/
theorem exists_prepare_eq_of_perm (hv : v.BuildsFromInput) {height : Height}
    (hheight : v.settings.specialTxMinHeight ≤ height) {votes votes' : List ExtendedVote}
    (hvotes : votes'.Perm votes)
    (hlength : (Aggregate.ofVotes height votes []).special.bids.length < 256 ^ 4) {s s' : Site σ}
    (hmempool : s'.mempool = s.mempool) :
    ∃ rest, (v.prepare height votes s).1 = (Aggregate.ofVotes height votes []).proposal rest ∧
      (v.prepare height votes' s').1 = (Aggregate.ofVotes height votes' []).proposal rest := by
  obtain ⟨hspecial, hbids, -⟩ := Aggregate.ofVotes_of_perm hvotes height
  have hfits := Aggregate.fits_special hlength
  have hfits' := Aggregate.fits_special (hbids.length_eq ▸ hlength)
  refine ⟨_, v.prepare_eq_proposal hheight hfits s, ?_⟩
  rw [v.prepare_eq_proposal hheight hfits' s', selectionBehind, selectionBehind,
    SpecialTransaction.length_toBytes_of_perm hspecial hbids,
    proposedTxs_of_mempool_eq hv height hmempool]

end Validator

/-! ## Proposals -/

/-- **The order of the votes does not matter.** Two proposers with the same settings, codec and ready
transactions that collected the same votes, in whatever order, prepare proposals of which only the
special transactions differ. These are read as special transactions for the same height, have the same
size, and carry the same bids, in some order. The same extensions are reported, in some order, and
behind these the same items. Every validator comes to the same decision on both. -/
theorem process_prepare_of_perm {σ τ : Type} (proposer : Validator σ)
    (hbuilder : proposer.BuildsFromInput) (height : Height)
    (hheight : proposer.settings.specialTxMinHeight ≤ height) {votes votes' : List ExtendedVote}
    (hvotes : votes'.Perm votes)
    (hlength : (Aggregate.ofVotes height votes []).special.bids.length < 256 ^ 4)
    {s s' : Site σ} (hmempool : s'.mempool = s.mempool) :
    let p := (proposer.prepare height votes s).1
    let p' := (proposer.prepare height votes' s').1
    (∃ first first' rest special special', p.txs = first :: rest ∧ p'.txs = first' :: rest ∧
      SpecialTransaction.ofBytes first = .ok special ∧
      SpecialTransaction.ofBytes first' = .ok special' ∧ special'.height = special.height ∧
      first'.length = first.length ∧ special'.bids.Perm special.bids) ∧
    p'.skipped.Perm p.skipped ∧
    p'.skipped.dropWhile SkippedItem.isExtension = p.skipped.dropWhile SkippedItem.isExtension ∧
    ∀ (validator : Validator τ) (decided : Height) (t t' : Site τ),
      (validator.process decided p'.txs t').1 = (validator.process decided p.txs t).1 := by
  intro p p'
  obtain ⟨hspecial, hbids, hskipped⟩ := Aggregate.ofVotes_of_perm hvotes height
  have hread := Aggregate.ofBytes_toBytes hlength
  have hread' := Aggregate.ofBytes_toBytes (hbids.length_eq ▸ hlength)
  have hsize := SpecialTransaction.length_toBytes_of_perm hspecial hbids
  obtain ⟨rest, hp, hp'⟩ := Validator.exists_prepare_eq_of_perm hbuilder hheight hvotes hlength hmempool
  rw [show p = _ from hp, show p' = _ from hp']
  refine ⟨⟨_, _, rest.txs, _, _, rfl, rfl, hread, hread', hspecial, hsize, hbids⟩,
    hskipped.append_right _, ?_, fun validator decided t t' => ?_⟩
  · rw [Aggregate.proposal, Aggregate.proposal, Aggregate.dropWhile_skipped_append,
      Aggregate.dropWhile_skipped_append]
  · exact Verdict.status_onProposal_of_perm hread' hread hbids _ _ _ _

/-- The votes of three validators, one of them for another height, in two orders. -/
theorem accept_votes_reversed :
    let v := proposing [oneBid]
    let votes := votesOf [listing ⟨2⟩ ["alpha"], listing ⟨1⟩ ["beta"], listing ⟨2⟩ ["gamma", "alpha"]]
    let p := (v.prepare ⟨3⟩ votes freshSite).1
    let p' := (v.prepare ⟨3⟩ votes.reverse freshSite).1
    p'.txs ≠ p.txs ∧ p'.txs.tail = p.txs.tail ∧ p'.skipped.Perm p.skipped ∧
      (v.process ⟨3⟩ p'.txs freshSite).1 = .accept := by
  intro v votes p p'
  have hbuilder : v.BuildsFromInput := by
    intro build hbuild _
    cases hbuild
    exact ⟨fun _ _ => .ok [oneBid], fun _ _ _ => rfl⟩
  obtain ⟨⟨first, first', rest, -, -, htxs, htxs', -⟩, hskipped, -, hprocess⟩ :=
    @process_prepare_of_perm Unit Unit v hbuilder ⟨3⟩ (by decide) votes votes.reverse
      votes.reverse_perm (by decide +kernel) freshSite freshSite rfl
  have htail : p'.txs.tail = p.txs.tail :=
    (congrArg List.tail htxs').trans (congrArg List.tail htxs).symm
  refine ⟨by decide +kernel, htail, hskipped, ?_⟩
  rw [hprocess v ⟨3⟩ freshSite freshSite]
  decide +kernel

end BidQuorum
