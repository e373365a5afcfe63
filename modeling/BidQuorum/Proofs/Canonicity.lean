import BidQuorum.Proofs.Formats

set_option autoImplicit false

/-! # How many forms a value has

Bids are compared by their bytes, transactions are known by the hash of theirs, and validators must
agree on what a proposal says. So bids, transactions and special transactions have one form each: what
is read of bytes is written as the same bytes again (`decode_eq_ok_iff_written`).

Vote extensions are different, as the contributions of the subscribers may come in any order. An
extension is written in one form, with the keys in ascending order; it is read from every byte string
that spells out its contributions, if need be with further ones that later ones replace
(`ofBytes_eq_ok_iff_spelled_out`). -/

namespace BidQuorum

open Format

/-! ## Lists of encodings -/

namespace Format

variable {α : Type} {f : Format α} {Fits : α → Prop}

/-- Lists of values that fit have the same encodings only if they are the same. -/
theorem ReadsBack.map_encode_inj (hf : f.ReadsBack Fits) {as bs : List α} (has : ∀ a ∈ as, Fits a)
    (hbs : ∀ b ∈ bs, Fits b) : as.map f.encode = bs.map f.encode ↔ as = bs := by
  refine ⟨fun h => ?_, congrArg _⟩
  have hdecode := hf.map_decode_encode has
  rw [h, hf.map_decode_encode hbs] at hdecode
  exact ((List.map_inj_right fun _ _ => Except.ok.inj).1 hdecode).symm

end Format

/-! ## One form -/

/-- **One form for each value.** Transactions, bids and special transactions are read from exactly the
bytes that they are written as. So bids are the same if their canonical bytes are, transactions are
the same if the bytes that their hash is taken of are, and a whole proposal determines the special
transaction and the transactions that were written into it. -/
theorem decode_eq_ok_iff_written :
    (∀ bytes tx, TxCodec.standard.decode bytes = .ok tx ↔
      TxCodec.standard.encode tx = .ok bytes ∧ tx.Fits) ∧
    (∀ bytes b, Bid.ofCanonicalBytes bytes = .ok b ↔ bytes = b.canonicalBytes ∧ b.Fits) ∧
    (∀ bytes s, SpecialTransaction.ofBytes bytes = .ok s ↔ bytes = s.toBytes ∧ s.Fits) ∧
    (∀ a b : Bid, a.Fits → b.Fits → (a.canonicalBytes = b.canonicalBytes ↔ a = b)) ∧
    (∀ tx tx' : Transaction, tx.Fits → tx'.Fits →
      (Transaction.format.encode tx = Transaction.format.encode tx' ↔ tx = tx')) ∧
    (∀ (s s' : SpecialTransaction) (txs txs' : List Transaction), s.Fits → s'.Fits →
      (∀ tx ∈ txs, tx.Fits) → (∀ tx ∈ txs', tx.Fits) →
      (s.toBytes :: txs.map Transaction.format.encode
          = s'.toBytes :: txs'.map Transaction.format.encode ↔ s = s' ∧ txs = txs')) := by
  refine ⟨fun bytes tx => ?_, fun bytes b => Bid.ofCanonicalBytes_eq_ok_iff, fun bytes s => ?_,
    fun a b => Bid.canonicalBytes_inj, fun tx tx' => Transaction.readsBack_format.encode_inj,
    fun s s' txs txs' hs hs' htxs htxs' => ?_⟩
  · rw [TxCodec.decode_standard_eq_ok_iff, TxCodec.encode_standard_eq_ok_iff]
    tauto
  · exact decode_eq_ok_iff_encode SpecialTransaction.readsBack_format
      SpecialTransaction.canonical_format
  · rw [List.cons_eq_cons, Transaction.readsBack_format.map_encode_inj htxs htxs']
    exact and_congr_left' (SpecialTransaction.readsBack_format.encode_inj hs hs')

/-- Bids, transactions and proposals that differ in one amount only are different as bytes. -/
theorem written_ne_of_amounts :
    let low : Bid := ⟨"alpha", "addr", "own", [⟨"coin", 5⟩]⟩
    let high : Bid := ⟨"alpha", "addr", "own", [⟨"coin", 6⟩]⟩
    let special : SpecialTransaction := ⟨⟨2⟩, [low.canonicalBytes]⟩
    low.canonicalBytes ≠ high.canonicalBytes ∧
      Transaction.format.encode ⟨[.bid low], []⟩ ≠ Transaction.format.encode ⟨[.bid high], []⟩ ∧
      special.toBytes :: [Transaction.mk [.bid low] []].map Transaction.format.encode
        ≠ special.toBytes :: [Transaction.mk [.bid high] []].map Transaction.format.encode := by
  intro low high special
  have hbids : low.Fits ∧ high.Fits := by decide +kernel
  have htxs : (Transaction.mk [.bid low] []).Fits ∧ (Transaction.mk [.bid high] []).Fits := by
    decide +kernel
  have hspecial : special.Fits := by decide +kernel
  obtain ⟨-, -, -, hbid, htx, hproposal⟩ := decode_eq_ok_iff_written
  refine ⟨?_, ?_, ?_⟩
  · rw [ne_eq, hbid low high hbids.1 hbids.2]
    decide
  · rw [ne_eq, htx _ _ htxs.1 htxs.2]
    decide
  · rw [ne_eq, hproposal special special _ _ hspecial hspecial
      (List.forall_mem_singleton.2 htxs.1) (List.forall_mem_singleton.2 htxs.2)]
    decide

/-! ## Forms of an extension -/

namespace Spelling

/-- The keys come in ascending order of their UTF-8 bytes, and so each of them once. -/
def Ascending (p : Spelling) : Prop :=
  (p.contributions.map Prod.fst).Pairwise fun k l => Utf8.bytes k < Utf8.bytes l

instance (p : Spelling) : Decidable p.Ascending := List.instDecidablePairwise _

/-- The last contribution under a key. -/
def last? (p : Spelling) (key : String) : Option Bytes :=
  TextMap.lookup? key p.contributions.reverse

theorem extension_eq_iff {p : Spelling} {v : VoteExtension} :
    p.extension = v ↔ v.height = p.height ∧ v.bids = p.bids ∧
      ∀ key, v.extraInfo.find? key = p.last? key := by
  constructor
  · rintro rfl
    exact ⟨rfl, rfl, TextMap.find?_ofList p.contributions⟩
  · obtain ⟨height, bids, info⟩ := v
    rintro ⟨rfl, rfl, hinfo⟩
    have hmap : TextMap.ofList p.contributions = info := TextMap.ext_find? fun key => by
      rw [TextMap.find?_ofList, hinfo]
      rfl
    rw [extension, hmap]

/-- An extension is written as it was spelled out if the keys were in order. -/
theorem toBytes_extension_eq_iff {p : Spelling} (hp : p.Fits) :
    p.extension.toBytes = Spelling.format.encode p ↔ p.Ascending := by
  have hv : p.extension.spelling.Fits :=
    ⟨hp.bids_length, hp.bids, hp.extension.extraInfo_length, hp.extension.extraInfo⟩
  have hwritten : p.extension.toBytes = Spelling.format.encode p.extension.spelling := rfl
  rw [hwritten, Spelling.readsBack_format.encode_inj hv hp, Ascending, List.pairwise_map,
    ← TextMap.entries_ofList_eq_iff]
  obtain ⟨height, bids, contributions⟩ := p
  simp [extension, VoteExtension.spelling]

end Spelling

/-- **The forms of an extension.** An extension is read back from the bytes that it is written as, and
these do not depend on the order in which contributions were added. It is also read from other bytes:
from all those that spell out its height, its bids, and contributions whose last one under each key is
its own. These are the bytes it is written as exactly if their keys are in ascending order. In any case
what is read can be written, and is then read back. -/
theorem ofBytes_eq_ok_iff_spelled_out :
    (∀ v : VoteExtension, v.Fits → VoteExtension.ofBytes v.toBytes = .ok v) ∧
    (∀ height bids (pairs pairs' : List (String × Bytes)), pairs.Perm pairs' →
      (pairs.map Prod.fst).Nodup →
      (VoteExtension.mk height bids (.ofList pairs)).toBytes
        = (VoteExtension.mk height bids (.ofList pairs')).toBytes) ∧
    (∀ bytes v, VoteExtension.ofBytes bytes = .ok v ↔
      ∃ p : Spelling, p.Fits ∧ bytes = Spelling.format.encode p ∧ v.height = p.height ∧
        v.bids = p.bids ∧ ∀ key, v.extraInfo.find? key = p.last? key) ∧
    (∀ bytes v (p : Spelling), VoteExtension.ofBytes bytes = .ok v → p.Fits →
      bytes = Spelling.format.encode p → (v.toBytes = bytes ↔ p.Ascending)) ∧
    (∀ bytes v, VoteExtension.ofBytes bytes = .ok v →
      VoteExtension.ofBytes v.toBytes = .ok v) := by
  refine ⟨fun v => VoteExtension.ofBytes_toBytes, fun height bids pairs pairs' hperm hkeys => ?_,
    fun bytes v => ?_, fun bytes v p hread hp hbytes => ?_, fun bytes v hread => ?_⟩
  · rw [TextMap.ofList_eq_of_perm hperm hkeys]
  · rw [VoteExtension.ofBytes_eq_ok_iff]
    simp only [Spelling.extension_eq_iff, and_assoc, and_left_comm]
  · -- The bytes spell out one thing only, so it is `p` that was read.
    have hv : p.extension = v := by
      have hspelled := VoteExtension.ofBytes_eq_ok_iff.2 ⟨p, ⟨hbytes, hp⟩, rfl⟩
      exact Except.ok.inj (hspelled.symm.trans hread)
    rw [← hv, hbytes]
    exact Spelling.toBytes_extension_eq_iff hp
  · exact VoteExtension.ofBytes_toBytes (VoteExtension.fits_of_ofBytes hread)

/-- Bytes in which a key comes twice are read with its last contribution, and written without the
first one. -/
theorem rewritten_of_repeated_key :
    let p : Spelling := ⟨⟨2⟩, [], [("b", [1]), ("a", [2]), ("b", [3])]⟩
    let v : VoteExtension := ⟨⟨2⟩, [], .ofList [("a", [2]), ("b", [3])]⟩
    VoteExtension.ofBytes (Spelling.format.encode p) = .ok v ∧
      v.toBytes ≠ Spelling.format.encode p ∧ VoteExtension.ofBytes v.toBytes = .ok v := by
  intro p v
  have hp : p.Fits := by decide +kernel
  have hextension : p.extension = v := by decide +kernel
  obtain ⟨-, -, hspelled, hordered, hagain⟩ := ofBytes_eq_ok_iff_spelled_out
  have hread : VoteExtension.ofBytes (Spelling.format.encode p) = .ok v :=
    (hspelled _ v).2 ⟨p, hp, rfl, Spelling.extension_eq_iff.1 hextension⟩
  refine ⟨hread, ?_, hagain _ v hread⟩
  rw [ne_eq, hordered _ v p hread hp rfl]
  decide +kernel

end BidQuorum
