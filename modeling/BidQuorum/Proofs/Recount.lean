import Mathlib.Logic.Relation
import BidQuorum.Proofs.TallyLaws

set_option autoImplicit false

/-! # Tallies compared

How a tally changes with what it is taken of. The order of the reference bids does not matter
(`tally_of_perm`), and two lists of transactions are counted one after the other
(`tally_append_eq_ok_iff`).

The threshold is half of the reference bids, rounded down, so it moves along with them. Still, a bid
that is frequent enough stays so where more copies of it come in and other bids drop out, and one
that is too rare stays so where others take its place or come in. Both are shown for one bid at a
time, at any place of the list, and then for any number of them. -/

namespace BidQuorum

/-! ## The order of the reference bids -/

theorem BidCounts.count_ofList_of_perm {bids bids' : List Bid} (h : bids.Perm bids') (b : Bid) :
    (ofList bids).count b = (ofList bids').count b := by
  rw [ofList, ofList, count_foldl_add, count_foldl_add, h.countP_eq]

/-- A tally is the same for all orders of the reference bids. -/
theorem tally_of_perm {reference reference' : List Bid} (h : reference.Perm reference')
    (codec : TxCodec) (txs : List Bytes) :
    tally codec reference txs = tally codec reference' txs := by
  have hfits : ∀ bids : List Bid,
      (∀ b ∈ reference ++ bids, b.Fits) ↔ ∀ b ∈ reference' ++ bids, b.Fits := by
    intro bids
    simp only [(h.append_right bids).mem_iff]
  simp only [tally, hfits, h.length_eq, BidCounts.count_ofList_of_perm h]

/-! ## What is counted -/

/-- The bids that are counted, in order. -/
def BidTally.bids (t : BidTally) : List Bid := t.frequencies.map Prod.fst

@[simp]
theorem BidTally.bids_counting (reference bids : List Bid) :
    (counting reference bids).bids = bids := by
  rw [BidTally.bids, counting, List.map_map]
  exact List.map_id' bids

section Counting

variable {codec : TxCodec} {reference : List Bid} {encoded : List Bytes} {t : BidTally}

/-- A tally comes to a result exactly if the transactions can be read and all the bids can be written,
and then counts the bids of the transactions among the reference bids. -/
theorem tally_eq_ok_iff_counting :
    tally codec reference encoded = .ok t ↔
      (∀ a ∈ reference, a.Fits) ∧ ∃ bids, codec.decodeBids encoded = .ok bids ∧
        (∀ b ∈ bids, b.Fits) ∧ t = .counting reference bids := by
  rw [tally_eq_ok_iff]
  constructor
  · rintro ⟨txs, hdecodes, hreference, hfits, ht⟩
    exact ⟨hreference, _, TxCodec.decodeBids_eq_ok_iff.2 ⟨txs, hdecodes, rfl⟩,
      List.forall_mem_flatMap.2 hfits, ht⟩
  · rintro ⟨hreference, bids, hbids, hfits, ht⟩
    obtain ⟨txs, hdecodes, rfl⟩ := TxCodec.decodeBids_eq_ok_iff.1 hbids
    exact ⟨txs, hdecodes, hreference, List.forall_mem_flatMap.1 hfits, ht⟩

theorem fits_of_tally (h : tally codec reference encoded = .ok t) :
    (∀ a ∈ reference, a.Fits) ∧ ∀ b ∈ t.bids, b.Fits := by
  obtain ⟨hreference, bids, -, hfits, rfl⟩ := tally_eq_ok_iff_counting.1 h
  rw [BidTally.bids_counting]
  exact ⟨hreference, hfits⟩

theorem threshold_of_tally (h : tally codec reference encoded = .ok t) :
    t.threshold = reference.length / 2 := by
  obtain ⟨-, bids, -, -, rfl⟩ := tally_eq_ok_iff_counting.1 h
  rfl

/-- The invalid bids of a tally are those of its bids that come short of half of the reference bids. -/
theorem mem_invalidBids_iff (h : tally codec reference encoded = .ok t) {b : Bid} :
    b ∈ t.invalidBids ↔ b ∈ t.bids ∧ reference.count b < reference.length / 2 := by
  obtain ⟨-, bids, -, -, rfl⟩ := tally_eq_ok_iff_counting.1 h
  rw [BidTally.invalidBids_counting, List.mem_filter, decide_eq_true_eq, BidTally.bids_counting]

end Counting

/-! ## Two lists of transactions -/

/-- The bids of two lists of transactions are read one after the other. -/
theorem TxCodec.decodeBids_append_eq_ok_iff {codec : TxCodec} {front back : List Bytes}
    {bids : List Bid} :
    codec.decodeBids (front ++ back) = .ok bids ↔
      ∃ first later, codec.decodeBids front = .ok first ∧ codec.decodeBids back = .ok later ∧
        bids = first ++ later := by
  constructor
  · intro h
    obtain ⟨txs, hdecodes, rfl⟩ := decodeBids_eq_ok_iff.1 h
    rw [Decodes, List.map_append] at hdecodes
    obtain ⟨txs, txs', rfl, hfront, hback⟩ := List.map_eq_append_iff.1 hdecodes.symm
    exact ⟨_, _, decodeBids_eq_ok_iff.2 ⟨txs, hfront.symm, rfl⟩,
      decodeBids_eq_ok_iff.2 ⟨txs', hback.symm, rfl⟩, List.flatMap_append⟩
  · rintro ⟨first, later, hfront, hback, rfl⟩
    obtain ⟨txs, htxs, rfl⟩ := decodeBids_eq_ok_iff.1 hfront
    obtain ⟨txs', htxs', rfl⟩ := decodeBids_eq_ok_iff.1 hback
    refine decodeBids_eq_ok_iff.2 ⟨txs ++ txs', ?_, List.flatMap_append⟩
    rw [Decodes, List.map_append, List.map_append, htxs, htxs']

namespace BidTally

/-- The first tally with the frequencies of the second behind its own. -/
def append (u w : BidTally) : BidTally := { u with frequencies := u.frequencies ++ w.frequencies }

theorem counting_append (reference first later : List Bid) :
    counting reference (first ++ later)
      = (counting reference first).append (counting reference later) := by
  rw [counting, List.map_append]
  rfl

theorem invalidBids_append {u w : BidTally} (h : w.threshold = u.threshold) :
    (u.append w).invalidBids = u.invalidBids ++ w.invalidBids := by
  have hrare : (u.append w).rare = u.rare ++ w.rare := by
    rw [rare, rare, rare, h]
    exact List.filter_append u.frequencies w.frequencies
  rw [invalidBids, hrare, List.map_append]
  rfl

theorem isValid_append {u w : BidTally} (h : w.threshold = u.threshold) :
    (u.append w).isValid ↔ u.isValid ∧ w.isValid := by
  simp only [isValid, invalidBids_append h, List.isEmpty_iff, List.append_eq_nil_iff]

end BidTally

section Append

variable {codec : TxCodec} {reference : List Bid} {front back : List Bytes} {t u w : BidTally}

/-- The tally of one list of transactions behind another is made up of the tallies of the two. -/
theorem tally_append_eq_ok_iff :
    tally codec reference (front ++ back) = .ok t ↔
      ∃ u w, tally codec reference front = .ok u ∧ tally codec reference back = .ok w ∧
        t = u.append w := by
  constructor
  · intro h
    obtain ⟨hreference, bids, hbids, hfits, rfl⟩ := tally_eq_ok_iff_counting.1 h
    obtain ⟨first, later, hfront, hback, rfl⟩ := TxCodec.decodeBids_append_eq_ok_iff.1 hbids
    obtain ⟨hfirst, hlater⟩ := List.forall_mem_append.1 hfits
    exact ⟨_, _, tally_eq_ok_iff_counting.2 ⟨hreference, first, hfront, hfirst, rfl⟩,
      tally_eq_ok_iff_counting.2 ⟨hreference, later, hback, hlater, rfl⟩,
      BidTally.counting_append reference first later⟩
  · rintro ⟨u, w, hu, hw, rfl⟩
    obtain ⟨hreference, first, hfront, hfirst, rfl⟩ := tally_eq_ok_iff_counting.1 hu
    obtain ⟨-, later, hback, hlater, rfl⟩ := tally_eq_ok_iff_counting.1 hw
    exact tally_eq_ok_iff_counting.2 ⟨hreference, first ++ later,
      TxCodec.decodeBids_append_eq_ok_iff.2 ⟨first, later, hfront, hback, rfl⟩,
      List.forall_mem_append.2 ⟨hfirst, hlater⟩,
      (BidTally.counting_append reference first later).symm⟩

/-- The bids of two lists of transactions are judged as they are in either of them. -/
theorem invalidBids_of_tally_append (h : tally codec reference (front ++ back) = .ok t)
    (hfront : tally codec reference front = .ok u) (hback : tally codec reference back = .ok w) :
    t.frequencies = u.frequencies ++ w.frequencies ∧
      t.invalidBids = u.invalidBids ++ w.invalidBids ∧ (t.isValid ↔ u.isValid ∧ w.isValid) := by
  have ht : t = u.append w :=
    Except.ok.inj (h.symm.trans (tally_append_eq_ok_iff.2 ⟨u, w, hfront, hback, rfl⟩))
  have hthreshold : w.threshold = u.threshold :=
    (threshold_of_tally hback).trans (threshold_of_tally hfront).symm
  subst ht
  exact ⟨rfl, BidTally.invalidBids_append hthreshold, BidTally.isValid_append hthreshold⟩

end Append

/-! ## Changes of the reference bids -/

namespace Bid

/-- A change of the reference bids in favour of a bid, by one of them. -/
inductive FavouredOnce (b : Bid) : List Bid → List Bid → Prop
  /-- Another copy of the bid comes in. -/
  | copied (before after : List Bid) : FavouredOnce b (before ++ after) (before ++ b :: after)
  /-- Another bid drops out. -/
  | dropped {a : Bid} (ha : a ≠ b) (before after : List Bid) :
      FavouredOnce b (before ++ a :: after) (before ++ after)

/-- A change of the reference bids to the disadvantage of a bid, by one of them. -/
inductive DisfavouredOnce (b : Bid) : List Bid → List Bid → Prop
  /-- Another bid takes the place of a copy of the bid. -/
  | replaced {a : Bid} (ha : a ≠ b) (before after : List Bid) :
      DisfavouredOnce b (before ++ b :: after) (before ++ a :: after)
  /-- Another bid comes in. -/
  | joined {a : Bid} (ha : a ≠ b) (before after : List Bid) :
      DisfavouredOnce b (before ++ after) (before ++ a :: after)

variable {b : Bid} {reference reference' : List Bid}

/-- A copy more is a bid more in all, so the threshold grows by one at most. -/
theorem FavouredOnce.half_le_count (h : b.FavouredOnce reference reference')
    (hb : reference.length / 2 ≤ reference.count b) :
    reference'.length / 2 ≤ reference'.count b := by
  cases h with
  | copied before after =>
      simp only [List.length_append, List.length_cons, List.count_append,
        List.count_cons_self] at hb ⊢
      omega
  | dropped ha before after =>
      simp only [List.length_append, List.length_cons, List.count_append,
        List.count_cons_of_ne ha] at hb ⊢
      omega

theorem DisfavouredOnce.count_lt_half (h : b.DisfavouredOnce reference reference')
    (hb : reference.count b < reference.length / 2) :
    reference'.count b < reference'.length / 2 := by
  cases h with
  | replaced ha before after =>
      simp only [List.length_append, List.length_cons, List.count_append, List.count_cons_self,
        List.count_cons_of_ne ha] at hb ⊢
      omega
  | joined ha before after =>
      simp only [List.length_append, List.length_cons, List.count_append,
        List.count_cons_of_ne ha] at hb ⊢
      omega

/-- Nothing but the bid itself comes in. -/
theorem FavouredOnce.fits (h : b.FavouredOnce reference reference') (hb : b.Fits)
    (hreference : ∀ a ∈ reference, a.Fits) : ∀ a ∈ reference', a.Fits := by
  cases h with
  | copied before after =>
      obtain ⟨hbefore, hafter⟩ := List.forall_mem_append.1 hreference
      exact List.forall_mem_append.2 ⟨hbefore, List.forall_mem_cons.2 ⟨hb, hafter⟩⟩
  | dropped ha before after =>
      obtain ⟨hbefore, hafter⟩ := List.forall_mem_append.1 hreference
      exact List.forall_mem_append.2 ⟨hbefore, (List.forall_mem_cons.1 hafter).2⟩

/-- Any number of changes in favour of a bid. -/
def Favoured (b : Bid) : List Bid → List Bid → Prop := Relation.ReflTransGen b.FavouredOnce

/-- Any number of changes to the disadvantage of a bid. -/
def Disfavoured (b : Bid) : List Bid → List Bid → Prop := Relation.ReflTransGen b.DisfavouredOnce

theorem Favoured.half_le_count (h : b.Favoured reference reference')
    (hb : reference.length / 2 ≤ reference.count b) :
    reference'.length / 2 ≤ reference'.count b := by
  induction h with
  | refl => exact hb
  | tail _ hstep ih => exact hstep.half_le_count ih

theorem Favoured.fits (h : b.Favoured reference reference') (hb : b.Fits)
    (hreference : ∀ a ∈ reference, a.Fits) : ∀ a ∈ reference', a.Fits := by
  induction h with
  | refl => exact hreference
  | tail _ hstep ih => exact hstep.fits hb ih

theorem Disfavoured.count_lt_half (h : b.Disfavoured reference reference')
    (hb : reference.count b < reference.length / 2) :
    reference'.count b < reference'.length / 2 := by
  induction h with
  | refl => exact hb
  | tail _ hstep ih => exact hstep.count_lt_half ih

end Bid

/-! ## Tallies with other reference bids -/

section Change

variable {codec : TxCodec} {reference reference' : List Bid} {encoded : List Bytes} {t : BidTally}

/-- With other reference bids, the same bids are counted. -/
theorem exists_tally_of_fits (h : tally codec reference encoded = .ok t)
    (hreference' : ∀ a ∈ reference', a.Fits) :
    ∃ t', tally codec reference' encoded = .ok t' ∧ t'.bids = t.bids := by
  obtain ⟨-, bids, hbids, hfits, rfl⟩ := tally_eq_ok_iff_counting.1 h
  refine ⟨_, tally_eq_ok_iff_counting.2 ⟨hreference', bids, hbids, hfits, rfl⟩, ?_⟩
  rw [BidTally.bids_counting, BidTally.bids_counting]

/-- Only a reference bid that cannot be written keeps the tally from a result. -/
theorem exists_unencodable (h : tally codec reference encoded = .ok t)
    (hreference' : ¬ ∀ a ∈ reference', a.Fits) :
    ∃ reason, tally codec reference' encoded = .error (.unencodable reason) := by
  obtain ⟨-, bids, hbids, -, -⟩ := tally_eq_ok_iff_counting.1 h
  have hunfit : ¬ ∀ a ∈ reference' ++ bids, a.Fits := fun hfits =>
    hreference' (List.forall_mem_append.1 hfits).1
  simp only [tally, hbids, if_neg hunfit]
  exact ⟨_, rfl⟩

/-- A valid bid stays valid when the reference bids change in favour of it. -/
theorem exists_valid_of_favoured (h : tally codec reference encoded = .ok t) {b : Bid}
    (hb : b ∈ t.bids) (hvalid : b ∉ t.invalidBids) (hfavoured : b.Favoured reference reference') :
    ∃ t', tally codec reference' encoded = .ok t' ∧ b ∈ t'.bids ∧ b ∉ t'.invalidBids := by
  have hcount : reference.length / 2 ≤ reference.count b :=
    Nat.le_of_not_lt fun hlt => hvalid ((mem_invalidBids_iff h).2 ⟨hb, hlt⟩)
  obtain ⟨hreference, hfits⟩ := fits_of_tally h
  obtain ⟨t', ht', hbids⟩ := exists_tally_of_fits h (hfavoured.fits (hfits b hb) hreference)
  refine ⟨t', ht', hbids ▸ hb, fun hinvalid => ?_⟩
  exact Nat.not_lt.2 (hfavoured.half_le_count hcount) ((mem_invalidBids_iff ht').1 hinvalid).2

/-- An invalid bid stays invalid when the reference bids change to its disadvantage, as long as they can
be written. -/
theorem exists_invalid_of_disfavoured (h : tally codec reference encoded = .ok t) {b : Bid}
    (hb : b ∈ t.invalidBids) (hdisfavoured : b.Disfavoured reference reference')
    (hreference' : ∀ a ∈ reference', a.Fits) :
    ∃ t', tally codec reference' encoded = .ok t' ∧ b ∈ t'.invalidBids := by
  obtain ⟨hmem, hcount⟩ := (mem_invalidBids_iff h).1 hb
  obtain ⟨t', ht', hbids⟩ := exists_tally_of_fits h hreference'
  exact ⟨t', ht', (mem_invalidBids_iff ht').2 ⟨hbids ▸ hmem, hdisfavoured.count_lt_half hcount⟩⟩

end Change

/-- **Tallies compared.** The whole result of a tally is the same for all orders of the reference bids.
One list of transactions behind another has a tally exactly if both have one; its frequencies and its
invalid bids are then those of the first with those of the second behind them, and it is valid if and
only if both are. A bid that is valid stays valid when, in any order and at any places, copies of it
come in among the reference bids and other bids drop out. A bid that is invalid stays invalid when
others take the place of copies of it or come in: it comes short of the threshold whatever these are,
and the tally lists it as invalid unless one of them is too long to be written. -/
theorem tallies_compared (codec : TxCodec) :
    (∀ reference reference' encoded, reference.Perm reference' →
      tally codec reference encoded = tally codec reference' encoded) ∧
    (∀ reference front back,
      ((∃ t, tally codec reference (front ++ back) = .ok t) ↔
        (∃ u, tally codec reference front = .ok u) ∧ ∃ w, tally codec reference back = .ok w) ∧
      ∀ t u w, tally codec reference (front ++ back) = .ok t →
        tally codec reference front = .ok u → tally codec reference back = .ok w →
        t.frequencies = u.frequencies ++ w.frequencies ∧
          t.invalidBids = u.invalidBids ++ w.invalidBids ∧ (t.isValid ↔ u.isValid ∧ w.isValid)) ∧
    (∀ reference reference' encoded t b, tally codec reference encoded = .ok t → b ∈ t.bids →
      (b ∉ t.invalidBids → b.Favoured reference reference' →
        ∃ t', tally codec reference' encoded = .ok t' ∧ b ∈ t'.bids ∧ b ∉ t'.invalidBids) ∧
      (b ∈ t.invalidBids → b.Disfavoured reference reference' →
        reference'.count b < reference'.length / 2 ∧
        ((∃ t', tally codec reference' encoded = .ok t' ∧ b ∈ t'.invalidBids) ∨
          (∃ reason, tally codec reference' encoded = .error (.unencodable reason)) ∧
            ∃ a ∈ reference', ¬ a.Fits))) := by
  refine ⟨fun _ _ encoded hperm => tally_of_perm hperm codec encoded,
    fun reference front back => ⟨?_, fun t u w => invalidBids_of_tally_append⟩,
    fun reference reference' encoded t b h hb => ⟨exists_valid_of_favoured h hb, ?_⟩⟩
  · constructor
    · rintro ⟨t, ht⟩
      obtain ⟨u, w, hu, hw, -⟩ := tally_append_eq_ok_iff.1 ht
      exact ⟨⟨u, hu⟩, w, hw⟩
    · rintro ⟨⟨u, hu⟩, w, hw⟩
      exact ⟨_, tally_append_eq_ok_iff.2 ⟨u, w, hu, hw, rfl⟩⟩
  · intro hinvalid hdisfavoured
    refine ⟨hdisfavoured.count_lt_half ((mem_invalidBids_iff h).1 hinvalid).2, ?_⟩
    by_cases hfits : ∀ a ∈ reference', a.Fits
    · exact .inl (exists_invalid_of_disfavoured h hinvalid hdisfavoured hfits)
    · refine .inr ⟨exists_unencodable h hfits, ?_⟩
      push Not at hfits
      exact hfits

/-- Of five reference bids two are equal to the one that is proposed last, and one to the one before. -/
theorem tallies_of_five_compared :
    let a : Bid := ⟨"alpha", "addr", "own", [⟨"coin", 5⟩]⟩
    let b : Bid := ⟨"alpha", "addr", "own", [⟨"coin", 6⟩]⟩
    let c : Bid := ⟨"gamma", "addr", "own", []⟩
    let front := [Transaction.format.encode ⟨[.bid c], []⟩]
    let back := [Transaction.format.encode ⟨[.bid a], []⟩]
    (∃ t, tally .standard [c, b, a, b, a] (front ++ back) = .ok t ∧ t.invalidBids = [c] ∧
      ¬ t.isValid) ∧
    (∃ t, tally .standard [a, b, a, a] back = .ok t ∧ a ∈ t.bids ∧ a ∉ t.invalidBids) ∧
    ∃ t, tally .standard [a, b, b, a, b] front = .ok t ∧ c ∈ t.invalidBids := by
  intro a b c front back
  have hfront : tally .standard [a, b, b, a, c] front = .ok (.counting [a, b, b, a, c] [c]) := by
    decide +kernel
  have hback : tally .standard [a, b, b, a, c] back = .ok (.counting [a, b, b, a, c] [a]) := by
    decide +kernel
  obtain ⟨hperm, happend, hchange⟩ := tallies_compared .standard
  refine ⟨?_, ?_, ?_⟩
  · obtain ⟨t, ht⟩ := (happend [a, b, b, a, c] front back).1.2 ⟨⟨_, hfront⟩, _, hback⟩
    obtain ⟨-, hinvalid, hvalid⟩ := (happend _ front back).2 t _ _ ht hfront hback
    refine ⟨t, ?_, hinvalid.trans (by decide +kernel), fun h => ?_⟩
    · rw [hperm [c, b, a, b, a] [a, b, b, a, c] _ (by decide +kernel)]
      exact ht
    · exact absurd (hvalid.1 h).1 (by decide +kernel)
  · have hfavoured : a.Favoured [a, b, b, a, c] [a, b, a, a] := by
      have hdropped : a.FavouredOnce [a, b, b, a, c] [a, b, a, c] :=
        .dropped (by decide +kernel) [a, b] [a, c]
      have hdropped' : a.FavouredOnce [a, b, a, c] [a, b, a] := .dropped (by decide +kernel) [a, b, a] []
      exact ((Relation.ReflTransGen.single hdropped).tail hdropped').tail (.copied [a, b, a] [])
    exact (hchange _ _ back _ a hback (by decide +kernel)).1 (by decide +kernel) hfavoured
  · have hdisfavoured : c.Disfavoured [a, b, b, a, c] [a, b, b, a, b] :=
      .single (.replaced (by decide +kernel) [a, b, b, a] [])
    obtain ⟨-, hinvalid | ⟨-, hunfit⟩⟩ :=
      (hchange _ _ front _ c hfront (by decide +kernel)).2 (by decide +kernel) hdisfavoured
    · exact hinvalid
    · exact absurd hunfit (by decide +kernel)

end BidQuorum
