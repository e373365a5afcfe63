import BidQuorum.Proofs.Tally

set_option autoImplicit false

/-! # Proposers and validators

What a validator decides on a proposal that was prepared as it should be, by a proposer with the same
settings and codec. Where the proposal carries a special transaction, the verdict depends on the bids
alone (`process_prepare_eq_accept_iff`).

Where it carries none, the first transaction stands in its place. Deciding does not look at the height
before it reads the first byte string as a special transaction, and the bytes of a transaction may
well be those of one: its key and signature bytes are arbitrary. The proposal is then measured against
bids that nobody made (`process_prepare_early_eq_accept_iff`). -/

namespace BidQuorum

open Validator

/-! ## The special transaction of a proposer -/

namespace Aggregate

/-- The bids of votes are short enough to be written again. -/
theorem length_of_mem_bids_ofVotes (height : Height) (votes : List ExtendedVote)
    (skipped : List SkippedItem) :
    ∀ b ∈ (ofVotes height votes skipped).special.bids, b.length < 256 ^ 4 := by
  have hadd : ∀ (a : Aggregate) (vote : ExtendedVote),
      (∀ b ∈ a.special.bids, b.length < 256 ^ 4) →
        ∀ b ∈ (a.add vote).special.bids, b.length < 256 ^ 4 := by
    intro a vote ha b hb
    unfold add at hb
    split at hb
    · exact ha b hb
    · split at hb
      · exact ha b hb
      · next extension hread =>
          split at hb
          · exact (List.mem_append.1 hb).elim (ha b) ((VoteExtension.fits_of_ofBytes hread).bids b)
          · exact ha b hb
  exact List.foldlRecOn votes add (fun b hb => nomatch hb) fun a ha vote _ => hadd a vote ha

/-- What is collected of the votes can be written unless there is too much of it. -/
theorem fits_special {height : Height} {votes : List ExtendedVote}
    (hlength : (ofVotes height votes []).special.bids.length < 256 ^ 4) :
    (ofVotes height votes []).special.Fits :=
  ⟨hlength, length_of_mem_bids_ofVotes height votes []⟩

/-- What a proposer writes of the votes is read back by everyone. -/
theorem ofBytes_toBytes {height : Height} {votes : List ExtendedVote}
    (hlength : (ofVotes height votes []).special.bids.length < 256 ^ 4) :
    SpecialTransaction.ofBytes (ofVotes height votes []).special.toBytes
      = .ok (ofVotes height votes []).special :=
  SpecialTransaction.readsBack_format.decode_encode (fits_special hlength)

end Aggregate

/-! ## Proposals with a special transaction -/

section Special

variable {σ τ : Type}

/-- **Proposer and validator agree.** At a height that carries a special transaction, a prepared
proposal is that transaction and the encodings of some transactions. The special transaction can
always be read, and the proposal is accepted exactly if it is backed: it carries no bids, or all of
these can be decoded and every bid of the transactions is equal to at least half of them. -/
theorem process_prepare_eq_accept_iff (proposer : Validator σ) (validator : Validator τ)
    (hsettings : validator.settings = proposer.settings)
    (hcodec : validator.codec = proposer.codec) (height : Height)
    (hheight : proposer.settings.specialTxMinHeight ≤ height) (votes : List ExtendedVote)
    (s : Site σ) (s' : Site τ)
    (hlength : (Aggregate.ofVotes height votes []).special.bids.length < 256 ^ 4)
    (hreads : ∀ tx ∈ (proposer.proposedTxs height s).1.1, proposer.codec.ReadsBack tx)
    (hfits : ∀ tx ∈ (proposer.proposedTxs height s).1.1, ∀ b ∈ tx.bids, b.Fits) :
    let special := (Aggregate.ofVotes height votes []).special
    let txs := (proposer.prepare height votes s).1.txs
    ∃ rest chosen, txs = special.toBytes :: rest ∧
      chosen.Sublist (proposer.proposedTxs height s).1.1 ∧ proposer.codec.Encodes chosen rest ∧
      SpecialTransaction.ofBytes special.toBytes = .ok special ∧
      ((validator.process height txs s').1 = .accept ↔ special.Backs chosen) := by
  intro special txs
  obtain ⟨rest, chosen, htxs, hsub, hencodes⟩ :=
    proposer.prepare_of_fits height votes s hheight (Aggregate.fits_special hlength)
  have hread := Aggregate.ofBytes_toBytes hlength
  refine ⟨rest, chosen, htxs, hsub, hencodes, hread, ?_⟩
  -- Deciding depends on settings, codec and bytes only, not on the site.
  have hprocess : (validator.process height txs s').1
      = (Verdict.onProposal proposer.settings proposer.codec height
          (special.toBytes :: rest)).status := by
    rw [← htxs, ← hsettings, ← hcodec]
    rfl
  rw [hprocess, Verdict.onProposal, hread]
  exact Verdict.ofSpecial_eq_accept_iff hencodes (fun tx htx => hreads tx (hsub.subset htx))
    (fun tx htx => hfits tx (hsub.subset htx)) height special

/-- A transaction with one bid. -/
def oneBid : Transaction := ⟨[.bid ⟨"alpha", "addr", "own", [⟨"coin", 5⟩]⟩], []⟩

/-- A validator whose builder proposes the given transactions, whatever is ready. -/
def proposing (txs : List Transaction) : Validator Unit where
  settings := { runProposalBuilder := true }
  builder := some fun _ _ => pure (.ok txs)

/-- A vote that witnesses the bids of the given transaction at the given height. -/
def voteFor (height : Height) (tx : Transaction) : ExtendedVote where
  validator := ⟨List.replicate 32 0, rfl⟩
  extension := (VoteExtension.mk height (tx.bids.map Bid.canonicalBytes) .empty).toBytes

theorem fits_oneBid : oneBid.Fits := by decide +kernel

/-- A bid that both votes witness is accepted. -/
theorem accept_oneBid_of_two_votes :
    let v := proposing [oneBid]
    let site : Site Unit := { mempool := .empty, outside := () }
    (v.process ⟨3⟩ (v.prepare ⟨3⟩ [voteFor ⟨2⟩ oneBid, voteFor ⟨2⟩ oneBid] site).1.txs site).1
      = .accept := by
  intro v site
  have hreads : ∀ tx ∈ (v.proposedTxs ⟨3⟩ site).1.1, v.codec.ReadsBack tx := by
    intro tx htx
    exact TxCodec.readsBack_standard tx
  have hfits : ∀ tx ∈ (v.proposedTxs ⟨3⟩ site).1.1, ∀ b ∈ tx.bids, b.Fits := by
    intro tx htx
    rw [List.mem_singleton.1 htx]
    exact fits_oneBid.bids
  obtain ⟨rest, chosen, -, hsub, -, -, haccept⟩ :=
    process_prepare_eq_accept_iff v v rfl rfl ⟨3⟩ (by decide)
      [voteFor ⟨2⟩ oneBid, voteFor ⟨2⟩ oneBid] site site (by decide +kernel) hreads hfits
  refine haccept.2 (.inr ⟨oneBid.bids ++ oneBid.bids, rfl, fun tx htx b hb => ?_⟩)
  have hbid : b ∈ oneBid.bids := List.mem_singleton.1 (hsub.subset htx) ▸ hb
  rw [List.mem_singleton.1 hbid]
  decide +kernel

end Special

/-! ## Proposals without one -/

section Early

variable {σ τ : Type}

/-- The first of the transactions does no harm in place of a special transaction: its encoding cannot
be read as one, or what is read is backed by the others. -/
def HarmlessFirst : List Transaction → Prop
  | [] => True
  | first :: rest =>
      ∀ special, SpecialTransaction.ofBytes (Transaction.format.encode first) = .ok special →
        special.Backs rest

/-- Without a special transaction, encodings are accepted exactly if the first does no harm. -/
theorem Verdict.onProposal_eq_accept_iff {settings : Settings} {height : Height}
    (hheight : ¬ settings.carriesSpecialTx height) {txs : List Transaction}
    (hfits : ∀ tx ∈ txs, tx.Fits) :
    (onProposal settings .standard height (txs.map Transaction.format.encode)).status = .accept ↔
      HarmlessFirst txs := by
  cases txs with
  | nil => exact ⟨fun _ => trivial, fun _ => rfl⟩
  | cons first rest =>
      rw [List.map_cons, onProposal, HarmlessFirst]
      cases SpecialTransaction.ofBytes (Transaction.format.encode first) with
      | error e =>
          have haccept : (withoutSpecial settings height e).status = .accept := by
            rw [withoutSpecial, if_neg (by simp [hheight])]
          exact ⟨fun _ => nofun, fun _ => haccept⟩
      | ok special =>
          have hrest : ∀ tx ∈ rest, tx.Fits := fun tx htx =>
            hfits tx (List.mem_cons_of_mem _ htx)
          have hbacks := ofSpecial_eq_accept_iff (TxCodec.encodes_standard_iff.2 ⟨hrest, rfl⟩)
            (fun tx _ => TxCodec.readsBack_standard tx) (fun tx htx => (hrest tx htx).bids) height
            special
          exact ⟨fun h other hother => Except.ok.inj hother ▸ hbacks.1 h,
            fun h => hbacks.2 (h special rfl)⟩

/-- **Early proposals.** At a height that carries no special transaction, a prepared proposal is the
encodings of some transactions. It is accepted exactly if the first of these does no harm in place of
a special transaction. -/
theorem process_prepare_early_eq_accept_iff (proposer : Validator σ) (validator : Validator τ)
    (hsettings : validator.settings = proposer.settings)
    (hproposer : proposer.codec = .standard) (hvalidator : validator.codec = .standard)
    (height : Height) (hheight : ¬ proposer.settings.specialTxMinHeight ≤ height)
    (votes : List ExtendedVote) (s : Site σ) (s' : Site τ) :
    let txs := (proposer.prepare height votes s).1.txs
    ∃ chosen : List Transaction, chosen.Sublist (proposer.proposedTxs height s).1.1 ∧
      txs = chosen.map Transaction.format.encode ∧
      ((validator.process height txs s').1 = .accept ↔ HarmlessFirst chosen) := by
  intro txs
  have hcarries : ¬ proposer.settings.carriesSpecialTx height := by
    rw [Settings.carriesSpecialTx, decide_eq_true_eq]
    exact hheight
  obtain ⟨hbehind, chosen, hsub, hencodes⟩ := proposer.prepare_spec height votes s
  rw [proposer.afterVotes_eq height votes s fun h => absurd h hheight] at hsub
  rw [Validator.opening, if_neg fun h => hheight h.1, List.nil_append] at hbehind
  rw [hproposer, ← hbehind] at hencodes
  obtain ⟨hfits, htxs⟩ := TxCodec.encodes_standard_iff.1 hencodes
  refine ⟨chosen, hsub, htxs, ?_⟩
  have hprocess : (validator.process height txs s').1
      = (Verdict.onProposal proposer.settings .standard height
          (chosen.map Transaction.format.encode)).status := by
    rw [← htxs, ← hsettings, ← hvalidator]
    rfl
  rw [hprocess]
  exact Verdict.onProposal_eq_accept_iff hcarries hfits

/-- The proposal of a transaction whose bytes are no special transaction is accepted early on. -/
theorem accept_oneBid_early :
    let v := proposing [oneBid]
    let site : Site Unit := { mempool := .empty, outside := () }
    (v.process ⟨2⟩ (v.prepare ⟨2⟩ [] site).1.txs site).1 = .accept := by
  intro v site
  obtain ⟨chosen, hsub, -, haccept⟩ :=
    process_prepare_early_eq_accept_iff v v rfl rfl rfl ⟨2⟩ (by decide) [] site site
  refine haccept.2 ?_
  cases chosen with
  | nil => trivial
  | cons first rest =>
      intro special hspecial
      have hfirst : first = oneBid := List.mem_singleton.1 (hsub.subset List.mem_cons_self)
      have hmalformed : SpecialTransaction.ofBytes (Transaction.format.encode oneBid)
          = .error .endOfInput := rfl
      rw [hfirst, hmalformed] at hspecial
      cases hspecial

/-- A transaction without messages. Its second signature verifies; the first is none, and lets the
bytes of the transaction be read as a special transaction with one bid of 184 bytes. -/
def disguised : Transaction where
  messages := []
  signatures :=
    ⟨⟨[1, 0, 0, 0, 184, 0, 0, 0] ++ List.replicate 24 0, rfl⟩, ⟨⟨List.replicate 64 0, rfl⟩⟩⟩ ::
      (Transaction.sign [] [⟨List.replicate 32 7, rfl⟩]).signatures

/-- A validator rejects the early proposal that it has itself prepared of such a transaction. -/
theorem reject_disguised_early :
    let v : Validator Unit := {}
    let site := (v.extend ⟨1⟩ (Action.insertTx disguised ⟨.empty, (), [], []⟩).2).2
    ¬ v.settings.specialTxMinHeight ≤ ⟨2⟩ ∧
      (v.process ⟨2⟩ (v.prepare ⟨2⟩ [] site).1.txs site).1 = .reject := by
  decide +kernel

end Early

end BidQuorum
