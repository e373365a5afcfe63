import BidQuorum.Proofs.Formats
import BidQuorum.Proofs.Selection

set_option autoImplicit false

/-! # The tally as a count of bids

A tally counts byte strings: the encodings of transactions, and bids under their canonical bytes. For
encodings that are read back, and bids that fit, it comes to counting the bids of the transactions
among the reference bids (`Verdict.ofSpecial_eq_accept_iff`). -/

namespace BidQuorum

/-! ## Frequencies -/

namespace BidCounts

theorem count_add (counts : BidCounts) (a b : Bid) :
    (counts.add a).count b
      = counts.count b + if a.canonicalBytes == b.canonicalBytes then 1 else 0 := by
  unfold add count
  rw [Std.TreeMap.getD_insert]
  by_cases hbytes : a.canonicalBytes = b.canonicalBytes
  · simp [hbytes]
  · simp [hbytes]

theorem count_foldl_add (counts : BidCounts) (bids : List Bid) (b : Bid) :
    count (bids.foldl add counts) b
      = counts.count b + bids.countP fun a => a.canonicalBytes == b.canonicalBytes := by
  -- The counts so far are generalised, as each bid adds to them.
  induction bids generalizing counts with
  | nil => rfl
  | cons a bids ih =>
      rw [List.foldl_cons, ih, count_add, List.countP_cons, Nat.add_assoc]
      congr 1
      exact Nat.add_comm _ _

/-- Bids that fit are counted one by one. -/
theorem count_ofList {bids : List Bid} (hbids : ∀ a ∈ bids, a.Fits) {b : Bid} (hb : b.Fits) :
    (ofList bids).count b = bids.count b := by
  have hempty : count (∅ : BidCounts) b = 0 := rfl
  rw [ofList, count_foldl_add, hempty, Nat.zero_add, List.count]
  refine List.countP_congr fun a ha => ?_
  simp only [beq_iff_eq]
  exact Bid.canonicalBytes_inj (hbids a ha) hb

end BidCounts

/-- A tally is valid if every frequency reaches the threshold. -/
theorem BidTally.isValid_iff (t : BidTally) :
    t.isValid ↔ ∀ x ∈ t.frequencies, t.threshold ≤ x.2 := by
  unfold isValid invalidBids rare
  rw [List.isEmpty_iff, List.map_eq_nil_iff, List.filter_eq_nil_iff]
  simp only [decide_eq_true_eq, Nat.not_lt]

/-! ## Codecs that read back -/

namespace TxCodec

variable {codec : TxCodec}

/-- The codec reads the transaction back from its encoding, if it has one. -/
def ReadsBack (codec : TxCodec) (tx : Transaction) : Prop :=
  ∀ bytes, codec.encode tx = .ok bytes → codec.decode bytes = .ok tx

/-- What the standard codec makes of transactions, all of which have to fit. -/
theorem encodes_standard_iff {txs : List Transaction} {encoded : List Bytes} :
    standard.Encodes txs encoded ↔
      (∀ tx ∈ txs, tx.Fits) ∧ encoded = txs.map Transaction.format.encode := by
  rw [Encodes]
  induction txs generalizing encoded with
  | nil => simp [eq_comm]
  | cons tx txs ih =>
      cases encoded with
      | nil => simp
      | cons bytes encoded =>
          rw [List.map_cons, List.map_cons, List.map_cons, List.cons_eq_cons, List.cons_eq_cons, ih,
            encode_standard_eq_ok_iff, List.forall_mem_cons, and_and_and_comm]

/-- The standard codec reads back whatever it writes. -/
theorem readsBack_standard (tx : Transaction) : standard.ReadsBack tx := by
  intro bytes hbytes
  obtain ⟨htx, rfl⟩ := encode_standard_eq_ok_iff.1 hbytes
  exact decode_standard htx

/-- The byte strings are read as the transactions, one for each. -/
def Decodes (codec : TxCodec) (encoded : List Bytes) (txs : List Transaction) : Prop :=
  encoded.map codec.decode = txs.map .ok

/-- Encodings that are read back are read as what they encode. -/
theorem Encodes.decodes {txs : List Transaction} {encoded : List Bytes}
    (h : codec.Encodes txs encoded) (hreads : ∀ tx ∈ txs, codec.ReadsBack tx) :
    codec.Decodes encoded txs := by
  induction txs generalizing encoded with
  | nil =>
      rw [Encodes, List.map_nil] at h
      rw [List.map_eq_nil_iff.1 h.symm]
      rfl
  | cons tx txs ih =>
      cases encoded with
      | nil => cases h
      | cons bytes encoded =>
          obtain ⟨hhead, htail⟩ := List.cons_eq_cons.1 h
          have hrest := ih htail fun x hx => hreads x (List.mem_cons_of_mem _ hx)
          rw [Decodes, List.map_cons, List.map_cons, hreads tx List.mem_cons_self bytes hhead, hrest]

/-- Byte strings are read as one list of transactions only. -/
theorem Decodes.unique {encoded : List Bytes} {txs txs' : List Transaction}
    (h : codec.Decodes encoded txs) (h' : codec.Decodes encoded txs') : txs = txs' :=
  (List.map_inj_right fun _ _ hab => Except.ok.inj hab).1 (h.symm.trans h')

theorem Decodes.exists_decode_eq {encoded : List Bytes} {txs : List Transaction}
    (h : codec.Decodes encoded txs) {tx : Transaction} (htx : tx ∈ txs) :
    ∃ bytes ∈ encoded, codec.decode bytes = .ok tx := by
  have hmem : (.ok tx : Except CodecError Transaction) ∈ encoded.map codec.decode := by
    rw [h]
    exact List.mem_map_of_mem htx
  exact List.mem_map.1 hmem

/-- The bids of byte strings are those of the transactions that they are read as. -/
theorem decodeBids_eq_ok_iff {encoded : List Bytes} {bids : List Bid} :
    codec.decodeBids encoded = .ok bids ↔
      ∃ txs, codec.Decodes encoded txs ∧ txs.flatMap Transaction.bids = bids := by
  induction encoded generalizing bids with
  | nil =>
      constructor
      · intro h
        cases h
        exact ⟨[], rfl, rfl⟩
      · rintro ⟨txs, h, rfl⟩
        rw [List.map_eq_nil_iff.1 h.symm]
        rfl
  | cons bytes rest ih =>
      rw [decodeBids]
      constructor
      · intro h
        split at h
        · cases h
        · next tx htx =>
            split at h
            · cases h
            · next others hothers =>
                cases h
                obtain ⟨txs, hdecodes, rfl⟩ := ih.1 hothers
                exact ⟨tx :: txs, by rw [Decodes, List.map_cons, htx, hdecodes, List.map_cons], rfl⟩
      · rintro ⟨txs, h, rfl⟩
        cases txs with
        | nil => cases h
        | cons tx txs =>
            obtain ⟨hfirst, hrest⟩ := List.cons_eq_cons.1 h
            simp only [hfirst, ih.2 ⟨txs, hrest, rfl⟩, List.flatMap_cons]

end TxCodec

/-! ## Verdicts -/

theorem ProposalStatus.eq_reject_iff {status : ProposalStatus} :
    status = .reject ↔ status ≠ .accept := by
  cases status <;> simp

/-- What it takes to stand behind a special transaction: that it carries no bids, or that all of them
can be decoded and every bid of the transactions is equal to at least half of them, rounded down. -/
def SpecialTransaction.Backs (special : SpecialTransaction) (txs : List Transaction) : Prop :=
  special.bids = [] ∨
  ∃ reference, special.decodeBids = .ok reference ∧
    ∀ tx ∈ txs, ∀ b ∈ tx.bids, special.bids.length / 2 ≤ reference.count b

section Verdict

variable {codec : TxCodec} {txs : List Transaction} {encoded : List Bytes}

/-- A tally comes to a result exactly if the transactions can be read and all the bids can be written.
It then counts each bid among the reference bids. -/
theorem tally_eq_ok_iff {reference : List Bid} {t : BidTally} :
    tally codec reference encoded = .ok t ↔
      ∃ txs, codec.Decodes encoded txs ∧ (∀ a ∈ reference, a.Fits) ∧
        (∀ tx ∈ txs, ∀ b ∈ tx.bids, b.Fits) ∧
        t = ⟨reference.length, reference.length / 2,
          (txs.flatMap Transaction.bids).map fun b => (b, reference.count b)⟩ := by
  unfold tally
  cases hbids : codec.decodeBids encoded with
  | error e =>
      constructor
      · intro h
        cases h
      · rintro ⟨txs, hdecodes, -⟩
        rw [TxCodec.decodeBids_eq_ok_iff.2 ⟨txs, hdecodes, rfl⟩] at hbids
        cases hbids
  | ok bids =>
      obtain ⟨txs, hdecodes, rfl⟩ := TxCodec.decodeBids_eq_ok_iff.1 hbids
      -- Where every bid fits, equal canonical bytes are equal bids.
      have hcounts : (∀ a ∈ reference, a.Fits) → (∀ tx ∈ txs, ∀ b ∈ tx.bids, b.Fits) →
          (txs.flatMap Transaction.bids).map (fun b => (b, (BidCounts.ofList reference).count b))
            = (txs.flatMap Transaction.bids).map fun b => (b, reference.count b) := by
        intro hreference htxs
        refine List.map_congr_left fun b hb => ?_
        obtain ⟨tx, htx, hbtx⟩ := List.mem_flatMap.1 hb
        rw [BidCounts.count_ofList hreference (htxs tx htx b hbtx)]
      simp only [List.forall_mem_append, List.forall_mem_flatMap]
      constructor
      · intro h
        split at h
        · next hfits =>
            cases h
            exact ⟨txs, hdecodes, hfits.1, hfits.2, by rw [hcounts hfits.1 hfits.2]⟩
        · cases h
      · rintro ⟨others, hothers, hreference, hfits, rfl⟩
        obtain rfl := hothers.unique hdecodes
        rw [if_pos ⟨hreference, hfits⟩, hcounts hreference hfits]

/-- The tally of byte strings is valid if every bid of the transactions is frequent enough. -/
theorem exists_tally (h : codec.Decodes encoded txs)
    (hfits : ∀ tx ∈ txs, ∀ b ∈ tx.bids, b.Fits) {reference : List Bid}
    (hreference : ∀ a ∈ reference, a.Fits) :
    ∃ t, tally codec reference encoded = .ok t ∧
      (t.isValid ↔ ∀ tx ∈ txs, ∀ b ∈ tx.bids, reference.length / 2 ≤ reference.count b) := by
  refine ⟨_, tally_eq_ok_iff.2 ⟨txs, h, hreference, hfits, rfl⟩, ?_⟩
  rw [BidTally.isValid_iff, List.forall_mem_map, List.forall_mem_flatMap]

/-- A tally counts each bid as often as it occurs among the reference bids. -/
theorem count_of_mem_frequencies {reference : List Bid} {t : BidTally}
    (htally : tally codec reference encoded = .ok t) {x : Bid × Nat} (hx : x ∈ t.frequencies) :
    x.2 = reference.count x.1 := by
  obtain ⟨txs, -, -, -, rfl⟩ := tally_eq_ok_iff.1 htally
  obtain ⟨b, -, rfl⟩ := List.mem_map.1 hx
  rfl

/-- Once its bids are decoded, a special transaction is judged by a tally. -/
theorem Verdict.ofSpecial_of_decodeBids {special : SpecialTransaction} {reference : List Bid}
    (hdecode : special.decodeBids = .ok reference) (hne : reference ≠ []) (height : Height) :
    ofSpecial codec height special encoded = ofTally height (tally codec reference encoded) := by
  have hempty : special.bids ≠ [] := by
    intro hnil
    rw [SpecialTransaction.decodeBids, hnil] at hdecode
    cases hdecode
    exact hne rfl
  rw [ofSpecial, if_neg (by simpa using hempty), hdecode]

/-- Transactions behind a special transaction are accepted exactly if it is backed. -/
theorem Verdict.ofSpecial_eq_accept_iff_backs (h : codec.Decodes encoded txs)
    (hfits : ∀ tx ∈ txs, ∀ b ∈ tx.bids, b.Fits) (height : Height) (special : SpecialTransaction) :
    (ofSpecial codec height special encoded).status = .accept ↔ special.Backs txs := by
  unfold ofSpecial SpecialTransaction.Backs
  by_cases hempty : special.bids = []
  · simp [hempty]
  · rw [if_neg (by simpa using hempty)]
    cases hdecode : special.decodeBids with
    | error e => simp [hempty]
    | ok reference =>
        obtain ⟨hlength, hreference⟩ := SpecialTransaction.fits_of_decodeAll hdecode
        obtain ⟨t, htally, hvalid⟩ := exists_tally h hfits hreference
        -- One bid is decoded of each byte string, so the threshold is that of the byte strings.
        rw [hlength] at hvalid
        simp only [htally, ofTally, hempty, false_or, Except.ok.injEq, exists_eq_left', ← hvalid]
        by_cases ht : t.isValid <;> simp [ht]

/-- Encodings behind a special transaction are accepted exactly if it is backed. -/
theorem Verdict.ofSpecial_eq_accept_iff (h : codec.Encodes txs encoded)
    (hreads : ∀ tx ∈ txs, codec.ReadsBack tx) (hfits : ∀ tx ∈ txs, ∀ b ∈ tx.bids, b.Fits)
    (height : Height) (special : SpecialTransaction) :
    (ofSpecial codec height special encoded).status = .accept ↔ special.Backs txs :=
  ofSpecial_eq_accept_iff_backs (h.decodes hreads) hfits height special

theorem Verdict.ofTally_eq_accept_iff {height : Height} {result : Except TallyError BidTally} :
    (ofTally height result).status = .accept ↔ ∃ t, result = .ok t ∧ t.isValid := by
  cases result with
  | error e => simp [ofTally]
  | ok t => by_cases ht : t.isValid <;> simp [ofTally, ht]

/-- What is accepted behind a special transaction with bids can be read, and every bid in it is equal to
at least half of the reference bids, rounded down. -/
theorem Verdict.exists_counted_of_ofSpecial {height : Height} {special : SpecialTransaction}
    (hne : special.bids ≠ []) (h : (ofSpecial codec height special encoded).status = .accept) :
    ∃ (reference : List Bid) (txs : List Transaction),
      special.decodeBids = .ok reference ∧ codec.Decodes encoded txs ∧
      ∀ tx ∈ txs, ∀ b ∈ tx.bids, special.bids.length / 2 ≤ reference.count b := by
  cases hdecode : special.decodeBids with
  | error e =>
      rw [ofSpecial, if_neg (by simpa using hne), hdecode] at h
      cases h
  | ok reference =>
      have hlength := (SpecialTransaction.fits_of_decodeAll hdecode).1
      have hreference : reference ≠ [] := by
        rintro rfl
        exact hne (List.length_eq_zero_iff.1 hlength.symm)
      rw [ofSpecial_of_decodeBids hdecode hreference, ofTally_eq_accept_iff] at h
      obtain ⟨t, htally, hvalid⟩ := h
      obtain ⟨txs, hdecodes, -, -, rfl⟩ := tally_eq_ok_iff.1 htally
      rw [BidTally.isValid_iff, List.forall_mem_map, List.forall_mem_flatMap, hlength] at hvalid
      exact ⟨reference, txs, rfl, hdecodes, hvalid⟩

end Verdict

end BidQuorum
