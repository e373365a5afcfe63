import BidQuorum.Proofs.Tally

set_option autoImplicit false

/-! # What a tally comes to

The tally counts under canonical bytes, in one pass over nested lists. For bids that fit it is what
one would write down without all this (`BidTally.counting`): each bid of the transactions, in order
and as often as it comes, with the number of reference bids that are equal to it
(`tally_counts_equal_bids`). A transaction that cannot be decoded is not a matter of counting, and the
first one is the result. -/

namespace BidQuorum

/-! ## Counting equal bids -/

namespace BidTally

/-- The tally of bids among reference bids. -/
def counting (reference bids : List Bid) : BidTally where
  total := reference.length
  threshold := reference.length / 2
  frequencies := bids.map fun b => (b, reference.count b)

variable {reference bids : List Bid}

theorem rare_counting :
    (counting reference bids).rare
      = (bids.filter fun b => reference.count b < reference.length / 2).map
          fun b => (b, reference.count b) := by
  rw [rare, counting, List.filter_map]
  rfl

theorem invalidBids_counting :
    (counting reference bids).invalidBids
      = bids.filter fun b => reference.count b < reference.length / 2 := by
  rw [invalidBids, rare_counting, List.map_map]
  exact List.map_id' _

theorem isValid_counting :
    (counting reference bids).isValid ↔ ∀ b ∈ bids, reference.length / 2 ≤ reference.count b := by
  rw [isValid_iff]
  exact List.forall_mem_map

/-- Of every bid that is too rare a warning is given. -/
theorem tallyLog_counting :
    tallyLog (.ok (counting reference bids))
      = (counting reference bids).invalidBids.map
          fun b => (counting reference bids).warning (b, reference.count b) := by
  rw [tallyLog, rare_counting, invalidBids_counting, List.map_map]
  rfl

end BidTally

/-! ## Transactions that cannot be decoded -/

namespace TxCodec

variable {codec : TxCodec} {encoded : List Bytes}

/-- If all byte strings are read, they are read as some list of transactions. -/
theorem exists_decodes (h : ∀ bytes ∈ encoded, ∃ tx, codec.decode bytes = .ok tx) :
    ∃ txs, codec.Decodes encoded txs := by
  induction encoded with
  | nil => exact ⟨[], rfl⟩
  | cons bytes rest ih =>
      obtain ⟨⟨tx, htx⟩, hrest⟩ := List.forall_mem_cons.1 h
      obtain ⟨txs, htxs⟩ := ih hrest
      exact ⟨tx :: txs, List.cons_eq_cons.2 ⟨htx, htxs⟩⟩

/-- If one of the byte strings cannot be read, there is a first one, and the bids cannot be read for
its reason. -/
theorem exists_first_error (h : ∃ bytes ∈ encoded, ∃ e, codec.decode bytes = .error e) :
    ∃ before bytes after e, encoded = before ++ bytes :: after ∧
      (∀ x ∈ before, ∃ tx, codec.decode x = .ok tx) ∧ codec.decode bytes = .error e ∧
      codec.decodeBids encoded = .error e := by
  induction encoded with
  | nil => exact absurd h nofun
  | cons bytes rest ih =>
      cases hbytes : codec.decode bytes with
      | error e => exact ⟨[], bytes, rest, e, rfl, nofun, hbytes, by rw [decodeBids, hbytes]⟩
      | ok tx =>
          have hrest : ∃ bytes ∈ rest, ∃ e, codec.decode bytes = .error e := by
            obtain ⟨later, hlater, e, he⟩ := h
            refine ⟨later, (List.mem_cons.1 hlater).resolve_left ?_, e, he⟩
            rintro rfl
            cases hbytes.symm.trans he
          obtain ⟨before, first, after, e, rfl, hbefore, he, hbids⟩ := ih hrest
          exact ⟨bytes :: before, first, after, e, rfl,
            List.forall_mem_cons.2 ⟨⟨tx, hbytes⟩, hbefore⟩, he,
            by simp only [decodeBids, hbytes, hbids]⟩

end TxCodec

/-- **A tally counts equal bids.** If a transaction cannot be decoded, the result is the error of the
first one, and one line says so in the log. Otherwise every bid of the transactions, in order and as
often as it comes, is listed with the number of reference bids that are equal to it. Those that come
short of half of the reference bids, rounded down, are invalid, in this order, and of each of them a
warning is given. The tally is valid if there are none. -/
theorem tally_counts_equal_bids (codec : TxCodec) (reference : List Bid) (encoded : List Bytes)
    (hreference : ∀ a ∈ reference, a.Fits)
    (hencoded : ∀ bytes ∈ encoded, ∀ tx, codec.decode bytes = .ok tx → ∀ b ∈ tx.bids, b.Fits) :
    let result := tally codec reference encoded
    ((∃ bytes ∈ encoded, ∃ e, codec.decode bytes = .error e) →
      ∃ before bytes after e, encoded = before ++ bytes :: after ∧
        (∀ x ∈ before, ∃ tx, codec.decode x = .ok tx) ∧ codec.decode bytes = .error e ∧
        result = .error (.undecodable e) ∧
        tallyLog result = [⟨.error, s!"Unable to decode proposal transaction: {e.message}"⟩]) ∧
    ((∀ bytes ∈ encoded, ∃ tx, codec.decode bytes = .ok tx) →
      ∃ txs t, codec.Decodes encoded txs ∧ result = .ok t ∧
        let bids := txs.flatMap Transaction.bids
        t.total = reference.length ∧ t.threshold = reference.length / 2 ∧
        t.frequencies = bids.map (fun b => (b, reference.count b)) ∧
        t.invalidBids = bids.filter (fun b => reference.count b < reference.length / 2) ∧
        tallyLog result = t.invalidBids.map (fun b => t.warning (b, reference.count b)) ∧
        (t.isValid ↔ ∀ b ∈ bids, reference.length / 2 ≤ reference.count b)) := by
  intro result
  constructor
  · intro h
    obtain ⟨before, bytes, after, e, hencoded, hbefore, hbytes, hbids⟩ := codec.exists_first_error h
    have hresult : result = .error (.undecodable e) := by
      simp only [result, tally, hbids]
    exact ⟨before, bytes, after, e, hencoded, hbefore, hbytes, hresult, by rw [hresult]; rfl⟩
  · intro h
    obtain ⟨txs, htxs⟩ := TxCodec.exists_decodes h
    have hfits : ∀ tx ∈ txs, ∀ b ∈ tx.bids, b.Fits := by
      intro tx htx
      obtain ⟨bytes, hbytes, hread⟩ := htxs.exists_decode_eq htx
      exact hencoded bytes hbytes tx hread
    have hresult : result = .ok (.counting reference (txs.flatMap Transaction.bids)) :=
      tally_eq_ok_iff.2 ⟨txs, htxs, hreference, hfits, rfl⟩
    refine ⟨txs, _, htxs, hresult, rfl, rfl, rfl, BidTally.invalidBids_counting, ?_,
      BidTally.isValid_counting⟩
    rw [hresult]
    exact BidTally.tallyLog_counting

/-- Bids in the transactions that the standard codec reads are not too long. -/
theorem TxCodec.fits_bids_of_decode_standard {bytes : Bytes} {tx : Transaction}
    (h : standard.decode bytes = .ok tx) : ∀ b ∈ tx.bids, b.Fits :=
  (decode_standard_eq_ok_iff.1 h).2.bids

/-- Among four reference bids one comes twice and one once, and they are proposed together. This tells
between them, and is not reached behind bytes that cannot be read. -/
theorem tally_counts_equal_bids_of_four :
    let a : Bid := ⟨"alpha", "addr", "own", [⟨"coin", 5⟩]⟩
    let b : Bid := ⟨"alpha", "addr", "own", [⟨"coin", 6⟩]⟩
    let c : Bid := ⟨"gamma", "addr", "own", []⟩
    let reference := [a, b, a, c]
    let bytes := Transaction.format.encode ⟨[.bid b, .bid a, .bid b], []⟩
    (∀ x ∈ reference, x.Fits) ∧
      (∃ t, tally .standard reference [bytes] = .ok t ∧ t.invalidBids = [b, b] ∧ ¬ t.isValid) ∧
      ∃ e, tally .standard reference [[0], bytes] = .error (.undecodable e) := by
  intro a b c reference bytes
  have hreference : ∀ x ∈ reference, x.Fits := by decide +kernel
  have hcodec : ∀ encoded : List Bytes, ∀ bytes ∈ encoded, ∀ tx,
      TxCodec.standard.decode bytes = .ok tx → ∀ x ∈ tx.bids, x.Fits :=
    fun _ _ _ _ hread => TxCodec.fits_bids_of_decode_standard hread
  have htx : TxCodec.standard.decode bytes = .ok ⟨[.bid b, .bid a, .bid b], []⟩ :=
    TxCodec.decode_standard (by decide +kernel)
  have hnothing : ∃ e, TxCodec.standard.decode [0] = .error e := ⟨_, rfl⟩
  refine ⟨hreference, ?_, ?_⟩
  · obtain ⟨txs, t, htxs, htally, -, -, -, hinvalid, -, hvalid⟩ :=
      (tally_counts_equal_bids .standard reference [bytes] hreference (hcodec _)).2
        (List.forall_mem_singleton.2 ⟨_, htx⟩)
    have hone : TxCodec.standard.Decodes [bytes] [⟨[.bid b, .bid a, .bid b], []⟩] :=
      congrArg (fun x => [x]) htx
    obtain rfl := htxs.unique hone
    refine ⟨t, htally, ?_, ?_⟩
    · rw [hinvalid]
      decide +kernel
    · rw [hvalid]
      decide +kernel
  · obtain ⟨_, _, _, e, -, -, -, hresult, -⟩ :=
      (tally_counts_equal_bids .standard reference [[0], bytes] hreference (hcodec _)).1
        ⟨[0], List.mem_cons_self, hnothing⟩
    exact ⟨e, hresult⟩

end BidQuorum
