import BidQuorum.Proofs.Agreement

set_option autoImplicit false

/-! # Proposals account for everything

Every transaction that is to be proposed either goes into the proposal or is reported as left out, and
what is reported is published (`prepare_accounts_for_all`). A proposal keeps the size limit unless the
special transaction alone is beyond it (`totalSize_prepare_le_iff`). -/

namespace BidQuorum

section Proposals

variable {σ : Type} (v : Validator σ) (height : Height) (votes : List ExtendedVote) (s : Site σ)

namespace Validator

/-- Preparing publishes an event for each reported item, and then one for the proposal. -/
theorem prepare_events :
    let chosen := (v.proposedTxs height (v.afterVotes height votes s)).2
    (v.prepare height votes s).2.mempool = chosen.mempool ∧
    (v.prepare height votes s).2.events = chosen.events
      ++ (v.prepare height votes s).1.skipped.map (fun item => .validator (.skippedItem height item))
      ++ [.validator (.preparedProposal height (v.specialTxBids? height votes)
          (v.prepare height votes s).1.txs.length (v.prepare height votes s).1.skipped.length)] := by
  obtain ⟨-, -, hbids⟩ := v.specialTx_spec height votes s
  rw [← hbids]
  exact ⟨rfl, rfl⟩

end Validator

/-- **A proposal accounts for every transaction.** Each of the transactions that are to be proposed has
its fate: it is in the proposal exactly if it can be encoded and, behind all that is in the proposal
before it, is within the size limit. The proposal is the special transaction, if the settings call for
one and it is not too long to be written, and then the encodings of those included, in order. Reported
are what could not be used of the votes and the special transaction if it is too long, then the builder
if it failed, then each transaction left out, in order, and nothing else. The pools stay as they are,
and each reported item is published, followed by the proposal. The builder is asked at the very site
where the proposal is prepared, unless a special transaction that is too long has been logged there. -/
theorem prepare_accounts_for_all (hbuilder : v.BuilderOnlyBuilds) :
    let s₀ := v.afterVotes height votes s
    let p := (v.prepare height votes s).1
    let after := (v.prepare height votes s).2
    ((v.settings.specialTxMinHeight ≤ height → (Aggregate.ofVotes height votes []).special.Fits) →
      s₀ = s) ∧
    (∃ fates : List Fate, fates.length = (v.candidates height s₀).length ∧
      (∀ (i : Nat) (tx : Transaction) (fate : Fate),
        (v.candidates height s₀)[i]? = some tx → fates[i]? = some fate →
        fate.Due v.codec v.settings.maxTxBytes
          (v.opening height votes ++ (fates.take i).flatMap Fate.placed) tx) ∧
      (∃ chosen, chosen.Sublist (v.candidates height s₀) ∧
        v.codec.Encodes chosen (fates.flatMap Fate.placed)) ∧
      p.txs = v.opening height votes ++ fates.flatMap Fate.placed ∧
      p.skipped = v.votesReport height votes ++ v.builderReport height s₀
        ++ fates.flatMap Fate.reported) ∧
    after.mempool = s.mempool ∧
    after.events = s.events
      ++ p.skipped.map (fun item => .validator (.skippedItem height item))
      ++ [.validator (.preparedProposal height (v.specialTxBids? height votes) p.txs.length
          p.skipped.length)] := by
  intro s₀ p after
  obtain ⟨fates, hfates, htxs, hskipped⟩ := v.exists_fates height votes s
  obtain ⟨hvotesMempool, hvotesEvents⟩ := v.afterVotes_spec height votes s
  obtain ⟨hmempool, hevents⟩ := (v.proposedTxs_spec height s₀).2 hbuilder
  obtain ⟨hafter, hpublished⟩ := v.prepare_events height votes s
  refine ⟨v.afterVotes_eq height votes s,
    ⟨fates, hfates.length_eq, fun _ _ _ => hfates.due, hfates.exists_chosen, htxs, hskipped⟩,
    hafter.trans (hmempool.trans hvotesMempool), ?_⟩
  rw [hevents.trans hvotesEvents] at hpublished
  exact hpublished

/-- A transaction without messages and signatures; it takes eight bytes. -/
def blankTx : Transaction := ⟨[], []⟩

/-- A validator with a size limit, whose builder proposes the given transactions. -/
def proposingWithin (most : UInt64) (txs : List Transaction) : Validator Unit :=
  { proposing txs with settings := { runProposalBuilder := true, maxTxBytes := some most } }

/-- Of three transactions the second is too large behind the first, and the third is not. -/
theorem accounts_for_three :
    let v := proposingWithin 16 [blankTx, oneBid, blankTx]
    let done := v.prepare ⟨2⟩ [] ⟨.empty, (), [], []⟩
    let blank := Transaction.format.encode blankTx
    let item := SkippedItem.tooLarge (some oneBid.hash) (Transaction.format.encode oneBid).length
    v.BuilderOnlyBuilds ∧ done.1.txs = [blank, blank] ∧ done.1.skipped = [item] ∧
      (∃ fates : List Fate, fates.length = 3 ∧ [blank, blank] = fates.flatMap Fate.placed ∧
        [item] = fates.flatMap Fate.reported) ∧
      done.2.events = [.validator (.skippedItem ⟨2⟩ item),
        .validator (.preparedProposal ⟨2⟩ none 2 1)] := by
  intro v done blank item
  have hbuilder : v.BuilderOnlyBuilds := by
    rintro _ ⟨⟩ - height txs s
    exact ⟨rfl, rfl⟩
  have htxs : done.1.txs = [blank, blank] := by decide +kernel
  have hskipped : done.1.skipped = [item] := by decide +kernel
  have hbids : v.specialTxBids? ⟨2⟩ [] = none := by decide
  obtain ⟨-, ⟨fates, hlength, -, -, hplaced, hreported⟩, -, hevents⟩ :=
    prepare_accounts_for_all v ⟨2⟩ [] ⟨.empty, (), [], []⟩ hbuilder
  have hdone : v.prepare ⟨2⟩ [] ⟨.empty, (), [], []⟩ = done := rfl
  rw [hdone, htxs] at hplaced
  rw [hdone, hskipped] at hreported
  rw [hdone, htxs, hskipped, hbids] at hevents
  exact ⟨hbuilder, htxs, hskipped, ⟨fates, hlength, hplaced, hreported⟩, hevents⟩

/-- **The size limit binds all but the special transaction.** A proposal is within the limit exactly if
its special transaction is, where the settings call for one and it can be written. If that is beyond the
limit already, it is proposed all the same, and nothing else. -/
theorem totalSize_prepare_le_iff {most : UInt64} (hlimit : v.settings.maxTxBytes = some most) :
    let special := (Aggregate.ofVotes height votes []).special
    let txs := (v.prepare height votes s).1.txs
    (totalSize txs ≤ most.toNat ↔ (v.settings.specialTxMinHeight ≤ height → special.Fits →
      special.toBytes.length ≤ most.toNat)) ∧
    (¬ totalSize txs ≤ most.toNat → txs = [special.toBytes]) := by
  intro special txs
  obtain ⟨fates, hfates, htxs, -⟩ := v.exists_fates height votes s
  have hwithin : ∀ bytes, WithinLimit v.settings.maxTxBytes bytes ↔ totalSize bytes ≤ most.toNat := by
    intro bytes
    rw [WithinLimit, hlimit]
    exact ⟨fun h => h most rfl, fun h _ hmost => Option.some.inj hmost ▸ h⟩
  have hopening : WithinLimit v.settings.maxTxBytes (v.opening height votes) ↔
      (v.settings.specialTxMinHeight ≤ height → special.Fits →
        special.toBytes.length ≤ most.toNat) := by
    rw [hwithin, Validator.opening]
    by_cases hcarried : v.settings.specialTxMinHeight ≤ height ∧ special.Fits
    · rw [if_pos hcarried, totalSize_singleton]
      exact ⟨fun h _ _ => h, fun h => h hcarried.1 hcarried.2⟩
    · rw [if_neg hcarried]
      exact ⟨fun _ hheight hfits => absurd ⟨hheight, hfits⟩ hcarried, fun _ => Nat.zero_le _⟩
  have hiff : totalSize txs ≤ most.toNat ↔ (v.settings.specialTxMinHeight ≤ height →
      special.Fits → special.toBytes.length ≤ most.toNat) := by
    rw [← hopening, ← hwithin]
    show WithinLimit _ (v.prepare height votes s).1.txs ↔ _
    rw [htxs]
    exact ⟨WithinLimit.of_append, hfates.withinLimit⟩
  refine ⟨hiff, fun hbeyond => ?_⟩
  rw [hiff, Classical.not_imp, Classical.not_imp] at hbeyond
  obtain ⟨hheight, hfits, hlarge⟩ := hbeyond
  have hnothing : fates.flatMap Fate.placed = [] :=
    hfates.placed_eq_nil fun h => hlarge (hopening.1 h hheight hfits)
  show (v.prepare height votes s).1.txs = _
  rw [htxs, hnothing, List.append_nil, Validator.opening, if_pos ⟨hheight, hfits⟩]

/-- A special transaction without bids takes twelve bytes: a limit of twelve leaves no room behind it. -/
theorem within_twelve_bytes :
    let v := proposingWithin 12 [oneBid]
    v.settings.maxTxBytes = some 12 ∧
      totalSize (v.prepare ⟨3⟩ [] ⟨.empty, (), [], []⟩).1.txs ≤ 12 := by
  intro v
  have hspecial : (Aggregate.ofVotes ⟨3⟩ [] []).special.toBytes.length = 12 := rfl
  refine ⟨rfl, (totalSize_prepare_le_iff v ⟨3⟩ [] ⟨.empty, (), [], []⟩ rfl).1.2 fun _ _ => ?_⟩
  rw [hspecial]
  exact Nat.le_refl 12

/-- A limit of eleven bytes is not kept: the special transaction is proposed all the same. -/
theorem beyond_eleven_bytes :
    let v := proposingWithin 11 [oneBid]
    v.settings.maxTxBytes = some 11 ∧
      ¬ totalSize (v.prepare ⟨3⟩ [] ⟨.empty, (), [], []⟩).1.txs ≤ 11 := by
  decide +kernel

end Proposals

end BidQuorum
