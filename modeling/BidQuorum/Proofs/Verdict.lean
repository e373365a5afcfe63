import BidQuorum.Proofs.Tally

set_option autoImplicit false

/-! # Acceptable proposals

What deserves to be accepted, said without the order in which a validator looks at things and without
its tallies (`Acceptable`), and the proof that a validator accepts just that, for every settings and
every codec (`process_eq_accept_iff_acceptable`).

The statement speaks of equal bids where a validator compares bytes. These are the same for bids that
fit on the wire: the reference bids do, as they were read from bytes, and of the codec it is asked
that the bids it comes up with do. -/

namespace BidQuorum

/-! ## What is acceptable -/

/-- The byte strings deserve to be accepted as a proposal for a height. -/
inductive Acceptable (settings : Settings) (codec : TxCodec) (height : Height) : List Bytes → Prop
  /-- Nothing is proposed. -/
  | empty : Acceptable settings codec height []
  /-- The first byte string is no special transaction, and is not required to be one. -/
  | unmarked {first : Bytes} {rest : List Bytes}
      (hfirst : ∀ special, SpecialTransaction.ofBytes first ≠ .ok special)
      (hlenient : ¬ (settings.rejectMalformedSpecialTx ∧ settings.specialTxMinHeight ≤ height)) :
      Acceptable settings codec height (first :: rest)
  /-- The special transaction carries no bids. -/
  | bidless {first : Bytes} {rest : List Bytes} {special : SpecialTransaction}
      (hfirst : SpecialTransaction.ofBytes first = .ok special) (hbids : special.bids = []) :
      Acceptable settings codec height (first :: rest)
  /-- The special transaction carries bids, all of which can be decoded, the codec reads all that
  follows, and every bid in it is equal to at least half of the reference bids, rounded down. -/
  | backed {first : Bytes} {rest : List Bytes} {special : SpecialTransaction}
      {reference : List Bid} {txs : List Transaction}
      (hfirst : SpecialTransaction.ofBytes first = .ok special) (hbids : special.bids ≠ [])
      (hreference : special.bids.map Bid.ofCanonicalBytes = reference.map .ok)
      (hrest : codec.Decodes rest txs)
      (hcount : ∀ tx ∈ txs, ∀ b ∈ tx.bids, special.bids.length / 2 ≤ reference.count b) :
      Acceptable settings codec height (first :: rest)

/-! ## What is accepted -/

namespace Verdict

variable {settings : Settings} {codec : TxCodec} {height : Height}

/-- A missing special transaction is held against a proposal only if the settings ask for both. -/
theorem withoutSpecial_eq_accept_iff (e : DecodeError) :
    (withoutSpecial settings height e).status = .accept ↔
      ¬ (settings.rejectMalformedSpecialTx ∧ settings.specialTxMinHeight ≤ height) := by
  simp only [withoutSpecial, Settings.carriesSpecialTx, Bool.and_eq_true, decide_eq_true_eq]
  split
  · next hstrict => exact ⟨fun h => (by cases h), fun hlenient => absurd hstrict hlenient⟩
  · next hlenient => exact ⟨fun _ => hlenient, fun _ => rfl⟩

/-- Behind a special transaction with bids, exactly what it backs is accepted, if it can be read. -/
theorem ofSpecial_eq_accept_iff_exists {special : SpecialTransaction} (hbids : special.bids ≠ [])
    {rest : List Bytes}
    (hfits : ∀ bytes ∈ rest, ∀ tx, codec.decode bytes = .ok tx → ∀ b ∈ tx.bids, b.Fits) :
    (ofSpecial codec height special rest).status = .accept ↔
      ∃ (reference : List Bid) (txs : List Transaction),
        special.bids.map Bid.ofCanonicalBytes = reference.map .ok ∧ codec.Decodes rest txs ∧
        ∀ tx ∈ txs, ∀ b ∈ tx.bids, special.bids.length / 2 ≤ reference.count b := by
  constructor
  · intro haccept
    obtain ⟨reference, txs, hdecode, hdecodes, hcount⟩ := exists_counted_of_ofSpecial hbids haccept
    exact ⟨reference, txs, SpecialTransaction.decodeAll_eq_ok_iff_map.1 hdecode, hdecodes, hcount⟩
  · rintro ⟨reference, txs, hreference, hdecodes, hcount⟩
    have hread : ∀ tx ∈ txs, ∀ b ∈ tx.bids, b.Fits := by
      intro tx htx
      obtain ⟨bytes, hbytes, hdecode⟩ := hdecodes.exists_decode_eq htx
      exact hfits bytes hbytes tx hdecode
    rw [ofSpecial_eq_accept_iff_backs hdecodes hread]
    exact .inr ⟨reference, SpecialTransaction.decodeAll_eq_ok_iff_map.2 hreference, hcount⟩

/-- The verdict is to accept exactly if the proposal is acceptable. -/
theorem onProposal_eq_accept_iff_acceptable {txs : List Bytes}
    (hfits : ∀ bytes ∈ txs, ∀ tx, codec.decode bytes = .ok tx → ∀ b ∈ tx.bids, b.Fits) :
    (onProposal settings codec height txs).status = .accept ↔
      Acceptable settings codec height txs := by
  cases txs with
  | nil => exact ⟨fun _ => .empty, fun _ => rfl⟩
  | cons first rest =>
      rw [onProposal]
      cases hfirst : SpecialTransaction.ofBytes first with
      | error e =>
          rw [withoutSpecial_eq_accept_iff]
          constructor
          · intro hlenient
            refine .unmarked (fun special hother => ?_) hlenient
            rw [hfirst] at hother
            cases hother
          · intro h
            cases h with
            | unmarked _ hlenient => exact hlenient
            | bidless hother => rw [hfirst] at hother; cases hother
            | backed hother => rw [hfirst] at hother; cases hother
      | ok special =>
          by_cases hbids : special.bids = []
          · have haccept : (ofSpecial codec height special rest).status = .accept := by
              rw [ofSpecial, if_pos (by simpa using hbids)]
            exact ⟨fun _ => .bidless hfirst hbids, fun _ => haccept⟩
          · rw [ofSpecial_eq_accept_iff_exists hbids fun bytes hbytes =>
              hfits bytes (List.mem_cons_of_mem _ hbytes)]
            constructor
            · rintro ⟨reference, txs, hreference, hdecodes, hcount⟩
              exact .backed hfirst hbids hreference hdecodes hcount
            · intro h
              cases h with
              | unmarked hother => exact absurd hfirst (hother special)
              | bidless hother hempty =>
                  cases hfirst.symm.trans hother
                  exact absurd hempty hbids
              | backed hother _ hreference hdecodes hcount =>
                  cases hfirst.symm.trans hother
                  exact ⟨_, _, hreference, hdecodes, hcount⟩

end Verdict

/-- **The verdict.** For every settings and every codec whose transactions have bids that fit, and
wherever it is done, deciding on a proposal comes to accept if the proposal is acceptable and to reject
if it is not. One event reports it, with the number of byte strings and the status. -/
theorem process_eq_accept_iff_acceptable {σ : Type} (v : Validator σ) (height : Height)
    (txs : List Bytes)
    (hfits : ∀ bytes ∈ txs, ∀ tx, v.codec.decode bytes = .ok tx → ∀ b ∈ tx.bids, b.Fits)
    (s : Site σ) :
    let decided := v.process height txs s
    (decided.1 = .accept ↔ Acceptable v.settings v.codec height txs) ∧
      (decided.1 = .reject ↔ ¬ Acceptable v.settings v.codec height txs) ∧
      decided.2.events = s.events ++ [.validator (.processedProposal txs.length decided.1)] := by
  intro decided
  have haccept : decided.1 = .accept ↔ Acceptable v.settings v.codec height txs :=
    Verdict.onProposal_eq_accept_iff_acceptable hfits
  exact ⟨haccept, by rw [ProposalStatus.eq_reject_iff, ne_eq, haccept], rfl⟩

/-- Two of five reference bids are enough, and one is not. -/
theorem accept_two_of_five :
    let a : Bid := ⟨"alpha", "addr", "own", [⟨"coin", 5⟩]⟩
    let b : Bid := ⟨"beta", "addr", "own", []⟩
    let c : Bid := ⟨"gamma", "addr", "own", []⟩
    let special : SpecialTransaction := ⟨⟨2⟩, [a, b, a, c, c].map Bid.canonicalBytes⟩
    let proposal (bid : Bid) : List Bytes :=
      [special.toBytes, Transaction.format.encode ⟨[.bid bid], []⟩]
    let site : Site Unit := { mempool := .empty, outside := () }
    let v : Validator Unit := {}
    let decided := v.process ⟨3⟩ (proposal a) site
    decided.1 = .accept ∧ decided.2.events = [.validator (.processedProposal 2 .accept)] ∧
      ¬ Acceptable v.settings v.codec ⟨3⟩ (proposal b) := by
  intro a b c special proposal site v decided
  have hfits : ∀ bid, ∀ bytes ∈ proposal bid, ∀ tx, v.codec.decode bytes = .ok tx →
      ∀ b ∈ tx.bids, b.Fits :=
    fun bid bytes _ tx hdecode => (TxCodec.decode_standard_eq_ok_iff.1 hdecode).2.bids
  have hfirst : SpecialTransaction.ofBytes special.toBytes = .ok special :=
    SpecialTransaction.readsBack_format.decode_encode (by decide +kernel)
  have hreference : special.bids.map Bid.ofCanonicalBytes = [a, b, a, c, c].map .ok :=
    SpecialTransaction.decodeAll_eq_ok_iff_map.1
      (SpecialTransaction.decodeAll_eq_ok_iff.2 ⟨rfl, by decide +kernel⟩)
  have hrest : v.codec.Decodes [Transaction.format.encode ⟨[.bid a], []⟩] [⟨[.bid a], []⟩] :=
    congrArg (fun read => [read]) (TxCodec.decode_standard (by decide +kernel))
  have hacceptable : Acceptable v.settings v.codec ⟨3⟩ (proposal a) :=
    .backed hfirst (by decide) hreference hrest (by decide +kernel)
  obtain ⟨haccept, -, hevents⟩ :=
    process_eq_accept_iff_acceptable v ⟨3⟩ (proposal a) (hfits a) site
  obtain ⟨-, hreject, -⟩ :=
    process_eq_accept_iff_acceptable v ⟨3⟩ (proposal b) (hfits b) site
  refine ⟨haccept.2 hacceptable, ?_, hreject.1 (by decide +kernel)⟩
  rw [haccept.2 hacceptable] at hevents
  exact hevents

end BidQuorum
