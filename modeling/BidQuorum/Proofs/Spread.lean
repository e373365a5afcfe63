import Mathlib.Data.List.Dedup
import BidQuorum.Proofs.Tally

set_option autoImplicit false

/-! # How many bids an accepted proposal can carry

Each bid that an accepted proposal carries takes up half of the reference bids, rounded down, and no
two different bids share any of them. So there is hardly room for more than two (`few_bids_of_accept`).
The rounding makes the one exception: of three reference bids each takes up but one. -/

namespace BidQuorum

/-- Different elements that each occur at least `t` times in a list take up `t` places each. -/
theorem length_mul_le_length {α : Type} [DecidableEq α] {different l : List α}
    (hdifferent : different.Nodup) {t : Nat} (hcount : ∀ a ∈ different, t ≤ l.count a) :
    different.length * t ≤ l.length := by
  -- The occurrences of the first one are set aside; those of the others are still there.
  induction different generalizing l with
  | nil => exact (Nat.zero_mul t).symm ▸ Nat.zero_le _
  | cons a rest ih =>
      obtain ⟨hnotin, hrest⟩ := List.nodup_cons.1 hdifferent
      have hothers : ∀ b ∈ rest, t ≤ (l.filter (· ≠ a)).count b := by
        intro b hb
        have hne : b ≠ a := fun heq => hnotin (heq ▸ hb)
        rw [List.count_filter (by simpa using hne)]
        exact hcount b (List.mem_cons_of_mem _ hb)
      have hsplit : l.length = l.count a + (l.filter (· ≠ a)).length := by
        rw [List.length_eq_countP_add_countP (· == a), ← List.countP_eq_length_filter, List.count]
        congr 2
        funext b
        simp
      calc (a :: rest).length * t = t + rest.length * t := by
            rw [List.length_cons, Nat.succ_mul, Nat.add_comm]
        _ ≤ l.count a + (l.filter (· ≠ a)).length :=
            Nat.add_le_add (hcount a List.mem_cons_self) (ih hrest hothers)
        _ = l.length := hsplit.symm

/-- Parts of at least half, rounded down, fit into a whole at most twice, or three times into three. -/
theorem le_two_of_mul_half_le {k n : Nat} (hn : 2 ≤ n) (h : k * (n / 2) ≤ n) (hne : n ≠ 3) :
    k ≤ 2 := by
  by_contra hk
  have hthree : 3 * (n / 2) ≤ k * (n / 2) := Nat.mul_le_mul_right _ (by omega)
  omega

/-- **Accepted proposals carry at most two different bids.** For every settings and every codec: if a
proposal is accepted whose special transaction has `n ≥ 2` bids, then the number of different bids in
the transactions behind it, times half of `n` rounded down, is at most `n`. So there are at most two of
them, or at most three if `n` is three, and each is one of the reference bids. -/
theorem few_bids_of_accept {σ : Type} (v : Validator σ) (height : Height) {first : Bytes}
    {rest : List Bytes} {special : SpecialTransaction}
    (hfirst : SpecialTransaction.ofBytes first = .ok special) (hbids : 2 ≤ special.bids.length)
    (s : Site σ) (haccept : (v.process height (first :: rest) s).1 = .accept) :
    let n := special.bids.length
    ∃ (reference : List Bid) (txs : List Transaction),
      special.decodeBids = .ok reference ∧ v.codec.Decodes rest txs ∧
      let different := (txs.flatMap Transaction.bids).dedup
      different.length * (n / 2) ≤ n ∧ (n ≠ 3 → different.length ≤ 2) ∧
        (n = 3 → different.length ≤ 3) ∧ ∀ b ∈ different, b ∈ reference := by
  intro n
  have hne : special.bids ≠ [] := by
    intro hnil
    rw [hnil] at hbids
    exact absurd hbids (by decide)
  have hstatus : (Verdict.ofSpecial v.codec height special rest).status = .accept := by
    have hprocess : (Verdict.onProposal v.settings v.codec height (first :: rest)).status = .accept :=
      haccept
    rwa [Verdict.onProposal, hfirst] at hprocess
  obtain ⟨reference, txs, hdecode, hdecodes, hcount⟩ :=
    Verdict.exists_counted_of_ofSpecial hne hstatus
  refine ⟨reference, txs, hdecode, hdecodes, ?_⟩
  intro different
  have hdifferent : ∀ b ∈ different, n / 2 ≤ reference.count b := by
    intro b hb
    obtain ⟨tx, htx, hbtx⟩ := List.mem_flatMap.1 (List.mem_dedup.1 hb)
    exact hcount tx htx b hbtx
  have hspread : different.length * (n / 2) ≤ n := by
    have hplaces := length_mul_le_length (List.nodup_dedup _) hdifferent
    rwa [(SpecialTransaction.fits_of_decodeAll hdecode).1] at hplaces
  refine ⟨hspread, le_two_of_mul_half_le hbids hspread, fun hthree => ?_, fun b hb => ?_⟩
  · rw [hthree] at hspread
    omega
  · have hpos : 0 < n / 2 := by omega
    exact List.count_pos_iff.1 (Nat.lt_of_lt_of_le hpos (hdifferent b hb))

/-- Of three reference bids each stands for itself, so a proposal may carry all three. -/
theorem three_bids_behind_three :
    let a : Bid := ⟨"alpha", "addr", "own", [⟨"coin", 5⟩]⟩
    let b : Bid := ⟨"beta", "addr", "own", []⟩
    let c : Bid := ⟨"gamma", "addr", "own", []⟩
    let special : SpecialTransaction := ⟨⟨2⟩, [a, b, c].map Bid.canonicalBytes⟩
    let tx : Transaction := ⟨[.bid a, .bid b, .bid c, .bid a], []⟩
    let site : Site Unit := { mempool := .empty, outside := () }
    let v : Validator Unit := {}
    (v.process ⟨3⟩ [special.toBytes, Transaction.format.encode tx] site).1 = .accept ∧
      ∃ (reference : List Bid) (txs : List Transaction),
        special.decodeBids = .ok reference ∧
        v.codec.Decodes [Transaction.format.encode tx] txs ∧
        (txs.flatMap Transaction.bids).dedup.length = 3 ∧
        (txs.flatMap Transaction.bids).dedup.length ≤ 3 ∧
        ∀ b ∈ (txs.flatMap Transaction.bids).dedup, b ∈ reference := by
  intro a b c special tx site v
  have hfirst : SpecialTransaction.ofBytes special.toBytes = .ok special :=
    SpecialTransaction.readsBack_format.decode_encode (by decide +kernel)
  have haccept : (v.process ⟨3⟩ [special.toBytes, Transaction.format.encode tx] site).1 = .accept := by
    decide +kernel
  obtain ⟨reference, txs, hdecode, hdecodes, -, -, hthree, hmem⟩ :=
    few_bids_of_accept v ⟨3⟩ hfirst (by decide) site haccept
  have htx : v.codec.Decodes [Transaction.format.encode tx] [tx] :=
    congrArg (fun read => [read]) (TxCodec.decode_standard (by decide +kernel))
  obtain rfl := hdecodes.unique htx
  exact ⟨haccept, reference, [tx], hdecode, hdecodes, by decide, hthree rfl, hmem⟩

end BidQuorum
