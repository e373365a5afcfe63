import Mathlib.Data.List.Perm.Basic
import BidQuorum.Proofs.Cursor
import BidQuorum.Proofs.Drain
import BidQuorum.Proofs.Journal

set_option autoImplicit false

/-! # Removals in any order

Once a block is committed its transactions are removed from the ready pool, in whatever order they come,
some of them perhaps twice and some that were never there. The order makes no difference to what is left
(`removals_in_any_order`). A removal takes out the oldest entry of a name, so two removals under
different names take different entries, and two under one name take its two oldest entries, whichever
comes first. A removal that finds nothing leaves the others what they would find. -/

namespace BidQuorum

/-! ## Names -/

/-- The name that a transaction is searched by, if it has one. -/
def Transaction.name? (tx : Transaction) : Option (Address × TxHash) :=
  (Mempool.identify tx).toOption

theorem Transaction.name?_eq_some_iff {tx : Transaction} {name : Address × TxHash} :
    tx.name? = some name ↔ Mempool.identify tx = .ok name := by
  rw [name?]
  cases Mempool.identify tx <;> simp [Except.toOption]

theorem Entry.Named.name?_eq {e : Entry} (he : e.Named) : e.tx.name? = some e.name :=
  Transaction.name?_eq_some_iff.2 he

/-- The names that transactions of entries are searched by are those of the entries. -/
theorem Entry.filterMap_name?_tx {es : List Entry} (hes : ∀ e ∈ es, e.Named) :
    (es.map Entry.tx).filterMap Transaction.name? = es.map Entry.name := by
  induction es with
  | nil => rfl
  | cons e es ih =>
      obtain ⟨he, hrest⟩ := List.forall_mem_cons.1 hes
      rw [List.map_cons, List.filterMap_cons_some he.name?_eq, ih hrest, List.map_cons]

theorem Entry.isFor_iff {e : Entry} {name : Address × TxHash} :
    e.isFor name.1 name.2 ↔ e.name = name := by
  refine ⟨name_eq, ?_⟩
  rintro rfl
  simp [isFor, Entry.name]

theorem mem_names_iff {es : List Entry} {name : Address × TxHash} :
    name ∈ es.map Entry.name ↔ ∃ e ∈ es, e.isFor name.1 name.2 := by
  simp only [List.mem_map, Entry.isFor_iff]

theorem count_names (es : List Entry) (signer : Address) (hash : TxHash) :
    (es.map Entry.name).count (signer, hash) = es.countP (Entry.isFor signer hash) := by
  rw [List.count, List.countP_map]
  refine List.countP_congr fun e _ => ?_
  rw [Function.comp_apply, beq_iff_eq]
  exact Entry.isFor_iff.symm

/-! ## Taking entries out by name -/

/-- Entries are taken out under two names in either order. -/
theorem eraseP_isFor_comm (es : List Entry) (a b : Address × TxHash) :
    (es.eraseP (Entry.isFor a.1 a.2)).eraseP (Entry.isFor b.1 b.2)
      = (es.eraseP (Entry.isFor b.1 b.2)).eraseP (Entry.isFor a.1 a.2) := by
  by_cases hab : a = b
  · rw [hab]
  · refine List.eraseP_comm fun e _ => ?_
    rw [Entry.isFor_iff, Entry.isFor_iff]
    exact or_iff_not_imp_left.2 fun ha hb => hab ((not_not.1 ha).symm.trans hb)

theorem without_eq_of_perm {names names' : List (Address × TxHash)} (h : names.Perm names')
    (es : List Entry) : without es names = without es names' :=
  have : RightCommutative fun (es : List Entry) (name : Address × TxHash) =>
      es.eraseP (Entry.isFor name.1 name.2) := ⟨eraseP_isFor_comm⟩
  h.foldl_eq es

/-- A name that no entry has takes nothing out. -/
theorem without_cons_of_notMem {es : List Entry} {name : Address × TxHash}
    (h : name ∉ es.map Entry.name) (names : List (Address × TxHash)) :
    without es (name :: names) = without es names := by
  rw [without, List.foldl_cons, List.eraseP_of_forall_not]
  · rfl
  · exact fun e he hfor => h (mem_names_iff.2 ⟨e, he, hfor⟩)

theorem count_names_without (es : List Entry) (names : List (Address × TxHash))
    (name : Address × TxHash) :
    ((without es names).map Entry.name).count name
      = (es.map Entry.name).count name - names.count name := by
  induction names generalizing es with
  | nil => rfl
  | cons first names ih =>
      rw [without, List.foldl_cons]
      refine (ih _).trans ?_
      rw [map_name_eraseP, List.count_erase, List.count_cons, Nat.sub_sub, Nat.add_comm]

/-- Entries are all taken out under their own names. -/
theorem without_own_names (es : List Entry) : without es (es.map Entry.name) = [] := by
  induction es with
  | nil => rfl
  | cons e es ih =>
      rw [List.map_cons, without, List.foldl_cons, List.eraseP_cons_of_pos (Entry.isFor_iff.2 rfl)]
      exact ih

/-! ## One removal -/

/-- A transaction without a name cannot be removed. -/
theorem PlainPools.remove_of_nameless (l : PlainPools) {tx : Transaction} (h : tx.name? = none) :
    ∃ e, l.remove tx = .error e := by
  rw [remove_eq]
  cases hname : Mempool.identify tx with
  | error e => exact ⟨e, rfl⟩
  | ok name => cases (Transaction.name?_eq_some_iff.2 hname).symm.trans h

/-- A transaction with a name is removed if the name is ready. -/
theorem PlainPools.remove_of_named (l : PlainPools) {tx : Transaction} {name : Address × TxHash}
    (h : tx.name? = some name) :
    l.remove tx = if name ∈ l.ready.map Entry.name then
        .ok { l with ready := l.ready.eraseP (Entry.isFor name.1 name.2) }
      else .error (.notFound name.2) := by
  rw [remove_eq, Transaction.name?_eq_some_iff.1 h]
  simp only [mem_names_iff]
  cases hfind : l.ready.find? (Entry.isFor name.1 name.2) with
  | none =>
      have hnone := List.find?_eq_none.1 hfind
      rw [if_neg]
      rintro ⟨e, he, hfor⟩
      exact hnone e he hfor
  | some e =>
      rw [if_pos ⟨e, List.mem_of_find?_eq_some hfind, List.find?_some hfind⟩]

/-- Removals do not touch the pending pool. -/
theorem Mempool.pending_remove {m : Mempool} {tx : Transaction} {c : Change}
    (h : m.remove tx = .ok c) : c.mempool.pending = m.pending := by
  rw [remove] at h
  split at h
  · cases h
  · split at h
    · cases h
    · cases h
      rfl

namespace PoolCall

variable {σ : Type} {s : Site σ} {tx : Transaction} {name : Address × TxHash}

theorem pending_remove (tx : Transaction) (s : Site σ) :
    ((remove tx).run s).2.mempool.pending = s.mempool.pending := by
  rw [run_eq_call, Action.call]
  cases hchange : (remove tx).change s.mempool with
  | error e => rfl
  | ok c => exact Mempool.pending_remove hchange

/-- A removal fails if the transaction has no name, or none that is ready. -/
theorem run_remove_of_notMem (hs : s.mempool.Indexed)
    (hname : ∀ name, tx.name? = some name → name ∉ s.mempool.plain.ready.map Entry.name) :
    ∃ e, (remove tx).run s = (.error e, s) := by
  rcases (remove tx).run_cases hs with ⟨e, -, hrun⟩ | ⟨signer, s', -, hplain, -, -, -⟩
  · exact ⟨e, hrun⟩
  · cases hnone : tx.name? with
    | none =>
        obtain ⟨e, herror⟩ := s.mempool.plain.remove_of_nameless hnone
        cases herror.symm.trans hplain
    | some name =>
        have herror := s.mempool.plain.remove_of_named hnone
        rw [if_neg (hname name hnone)] at herror
        cases herror.symm.trans hplain

/-- A removal under a name that is ready succeeds, and takes out the first entry of the name. -/
theorem run_remove_of_mem (hs : s.mempool.Indexed) (hname : tx.name? = some name)
    (hmem : name ∈ s.mempool.plain.ready.map Entry.name) :
    ∃ s', (remove tx).run s = (.ok tx.hash, s') ∧ s'.mempool.Indexed ∧
      s'.mempool.ready.toList = s.mempool.ready.toList.eraseP (Entry.isFor name.1 name.2) := by
  have hremove := s.mempool.plain.remove_of_named hname
  rw [if_pos hmem] at hremove
  rcases (remove tx).run_cases hs with
    ⟨e, hplain, -⟩ | ⟨signer, s', -, hplain, hrun, hindexed, -⟩
  · cases hremove.symm.trans hplain
  · have hlists := Except.ok.inj (hplain.symm.trans hremove)
    exact ⟨s', hrun, hindexed, congrArg PlainPools.ready hlists⟩

/-! ## Several removals -/

/-- The removal of each of the transactions, in order. -/
def removeAll (txs : List Transaction) : List PoolCall := txs.map remove

theorem pending_removeAll (txs : List Transaction) (s : Site σ) :
    (after (removeAll txs) s).mempool.pending = s.mempool.pending := by
  induction txs generalizing s with
  | nil => rfl
  | cons tx rest ih => exact (ih _).trans (pending_remove tx s)

/-- One removal takes out the name of the transaction, if that is ready. -/
theorem after_removal (hs : s.mempool.Indexed) (tx : Transaction) :
    ((remove tx).run s).2.mempool.Indexed ∧
    ((remove tx).run s).2.mempool.ready.toList
      = without s.mempool.ready.toList tx.name?.toList ∧
    ∀ name, (removals [remove tx] s).count name
      = min (tx.name?.toList.count name) ((s.mempool.ready.toList.map Entry.name).count name) := by
  by_cases hfound : ∃ name ∈ s.mempool.ready.toList.map Entry.name, tx.name? = some name
  · obtain ⟨⟨signer, hash⟩, hmem, hname⟩ := hfound
    obtain ⟨s', hrun, hs', hready⟩ := run_remove_of_mem hs hname hmem
    have hidentify : Mempool.identify (remove tx).tx = .ok (signer, hash) :=
      Transaction.name?_eq_some_iff.1 hname
    obtain rfl := Mempool.hash_of_identify hidentify
    rw [removals, successes_of_ok hidentify hrun, hrun, hname]
    refine ⟨hs', hready, fun name => ?_⟩
    have hone : 1 ≤ (s.mempool.ready.toList.map Entry.name).count (signer, tx.hash) :=
      List.one_le_count_iff.2 hmem
    change [(signer, tx.hash)].count name = min ([(signer, tx.hash)].count name) _
    rw [List.count_singleton]
    split
    · next heq =>
        rw [← eq_of_beq heq]
        omega
    · omega
  · have hnone : ∀ name, tx.name? = some name → name ∉ s.mempool.plain.ready.map Entry.name :=
      fun name hname hmem => hfound ⟨name, hmem, hname⟩
    obtain ⟨e, hrun⟩ := run_remove_of_notMem hs hnone
    rw [removals, successes_of_error hrun, hrun]
    cases hname : tx.name? with
    | none => exact ⟨hs, rfl, fun _ => (Nat.zero_min _).symm⟩
    | some absent =>
        have habsent : absent ∉ s.mempool.ready.toList.map Entry.name := hnone absent hname
        refine ⟨hs, (without_cons_of_notMem habsent []).symm, fun name => ?_⟩
        rw [Option.toList_some, List.count_singleton]
        split
        · next heq =>
            rw [← eq_of_beq heq, List.count_eq_zero_of_not_mem habsent]
            rfl
        · exact (Nat.zero_min _).symm

/-- What several removals come to: each name takes out one entry, as long as there is one. -/
theorem after_removeAll (txs : List Transaction) (hs : s.mempool.Indexed) :
    (after (removeAll txs) s).mempool.ready.toList
      = without s.mempool.ready.toList (txs.filterMap Transaction.name?) ∧
    ∀ name, (removals (removeAll txs) s).count name
      = min ((txs.filterMap Transaction.name?).count name)
          ((s.mempool.ready.toList.map Entry.name).count name) := by
  -- The removals that remain are made where the first one has led.
  induction txs generalizing s with
  | nil => exact ⟨rfl, fun _ => (Nat.zero_min _).symm⟩
  | cons tx rest ih =>
      obtain ⟨hs', hready, hone⟩ := after_removal hs tx
      obtain ⟨hrest, hremovals⟩ := ih hs'
      have hnames : (tx :: rest).filterMap Transaction.name?
          = tx.name?.toList ++ rest.filterMap Transaction.name? := by
        rw [List.filterMap_cons]
        cases tx.name? <;> rfl
      refine ⟨?_, fun name => ?_⟩
      · rw [hnames, without, List.foldl_append]
        exact hrest.trans (congrArg (without · _) hready)
      · have hsplit : removals (removeAll (tx :: rest)) s
            = removals [remove tx] s ++ removals (removeAll rest) ((remove tx).run s).2 :=
          removals_cons _ _ s
        have hleft := count_names_without s.mempool.ready.toList tx.name?.toList name
        rw [hsplit, hnames, List.count_append, List.count_append, hone, hremovals, hready, hleft]
        omega

/-- If the names of the transactions are those that are ready, in any order, all removals succeed. -/
theorem answers_removeAll {txs : List Transaction} (hs : s.mempool.Indexed)
    (hnamed : ∀ tx ∈ txs, tx.name? ≠ none)
    (hnames : (txs.filterMap Transaction.name?).Perm (s.mempool.ready.toList.map Entry.name)) :
    (views (removeAll txs) s).map CallView.answer = txs.map fun tx => .ok tx.hash := by
  induction txs generalizing s with
  | nil => rfl
  | cons tx rest ih =>
      obtain ⟨name, hname⟩ := Option.ne_none_iff_exists'.1 (hnamed tx List.mem_cons_self)
      rw [List.filterMap_cons_some hname, List.cons_perm_iff_perm_erase] at hnames
      obtain ⟨s', hrun, hs', hready⟩ := run_remove_of_mem hs hname hnames.1
      have hrest : (rest.filterMap Transaction.name?).Perm
          (s'.mempool.ready.toList.map Entry.name) := by
        rw [hready, map_name_eraseP]
        exact hnames.2
      have hanswers := ih hs' (fun tx htx => hnamed tx (List.mem_cons_of_mem _ htx)) hrest
      change (views (remove tx :: removeAll rest) s).map CallView.answer = _
      rw [views, hrun, List.map_cons, List.map_cons, hanswers]

end PoolCall

/-! ## Removals in another order -/

/-- The number of the transactions that are searched by this signer and this hash. -/
def copies (signer : Address) (hash : TxHash) (txs : List Transaction) : Nat :=
  (txs.filterMap Transaction.name?).count (signer, hash)

open PoolCall in
/-- **Committed transactions may be removed in any order.** Whatever transactions are removed from a
mempool that can come about, in this order or in that, the ready pool is left with the same entries in
the same order, and the pending pool is left alone. Of the removals of transactions of one signer and
hash as many succeed in either order, namely as many as there are, but no more than such entries are
ready. If the transactions are those of a snapshot of the ready pool, in any order, then all removals
succeed and nothing is left. -/
theorem removals_in_any_order {σ : Type} (s : Site σ) (hs : s.mempool.Reachable)
    (txs order : List Transaction) (horder : order.Perm txs) :
    (after (removeAll order) s).mempool.ready.toList
      = (after (removeAll txs) s).mempool.ready.toList ∧
    (after (removeAll order) s).mempool.pending = s.mempool.pending ∧
    (after (removeAll txs) s).mempool.pending = s.mempool.pending ∧
    (∀ signer hash,
      let found := min (copies signer hash txs)
        (s.mempool.ready.toList.countP (Entry.isFor signer hash))
      (removals (removeAll order) s).count (signer, hash) = found ∧
      (removals (removeAll txs) s).count (signer, hash) = found) ∧
    (txs = (Cursor.ofPool s.mempool.ready).rest.1 →
      (views (removeAll order) s).map CallView.answer = order.map (fun tx => .ok tx.hash) ∧
      (after (removeAll order) s).mempool.ready.toList = []) := by
  have hindexed := hs.regular.indexed
  have hnames := horder.filterMap Transaction.name?
  obtain ⟨hready, hcount⟩ := after_removeAll txs hindexed
  obtain ⟨hready', hcount'⟩ := after_removeAll order hindexed
  refine ⟨?_, pending_removeAll order s, pending_removeAll txs s, fun signer hash => ⟨?_, ?_⟩, ?_⟩
  · rw [hready, hready', without_eq_of_perm hnames]
  · rw [hcount', hnames.count_eq, count_names, copies]
  · rw [hcount, count_names, copies]
  · rintro rfl
    have hown : ∀ e ∈ s.mempool.ready.toList, e.Named := hs.regular.named.ready
    rw [Cursor.rest_ofPool] at horder hnames
    rw [Entry.filterMap_name?_tx hown] at hnames
    have hnamed : ∀ tx ∈ order, tx.name? ≠ none := by
      intro tx htx
      obtain ⟨e, he, rfl⟩ := List.mem_map.1 (horder.mem_iff.1 htx)
      rw [(hown e he).name?_eq]
      exact Option.some_ne_none _
    refine ⟨answers_removeAll hindexed hnamed hnames, ?_⟩
    rw [hready', without_eq_of_perm hnames, without_own_names]

/-- The first pending transaction is the last one ready once it is promoted. -/
theorem readyTxs_promote_head {σ : Type} {s : Site σ} (hs : s.mempool.Reachable) {tx : Transaction}
    {rest : List Transaction} (h : s.mempool.pendingTxs = tx :: rest) :
    (PoolCall.after [.promote tx] s).mempool.readyTxs = s.mempool.readyTxs ++ [tx] := by
  obtain ⟨e, later, hpending, rfl, -⟩ := List.map_eq_cons_iff.1 h
  have hmem : e ∈ s.mempool.pending.toList := hpending ▸ List.mem_cons_self
  obtain ⟨s', hanswer, hlists, -⟩ :=
    Action.promoteTx_head hs.regular.indexed hpending (hs.regular.named.pending e hmem)
  have hready : s'.mempool.ready.toList = s.mempool.ready.toList ++ [e.promoted] :=
    congrArg PlainPools.ready hlists
  have hafter : PoolCall.after [.promote e.tx] s = s' := congrArg Prod.snd hanswer
  rw [hafter, Mempool.readyTxs, hready, List.map_append]
  rfl

/-- A site where one transaction is ready. -/
def readySite : Site Unit := PoolCall.after [.promote signedBid] (insertedSite signedBid)

theorem reachable_readySite : readySite.mempool.Reachable :=
  PoolCall.reachable_after _ (reachable_insertedSite signedBid)

theorem readyTxs_readySite : readySite.mempool.readyTxs = [signedBid] := by
  rw [readySite, readyTxs_promote_head (reachable_insertedSite signedBid) pendingTxs_signedBid,
    readyTxs_insertedSite, List.nil_append]

/-- One transaction is ready. It is removed twice, with an unsigned one in front or in between: only
one removal succeeds. To remove what a snapshot shows leaves nothing. -/
theorem one_removal_of_signedBid :
    let unsigned : Transaction := ⟨[], []⟩
    let txs := [signedBid, unsigned, signedBid]
    let order := [unsigned, signedBid, signedBid]
    order.Perm txs ∧
      (PoolCall.after (PoolCall.removeAll order) readySite).mempool.ready.toList
        = (PoolCall.after (PoolCall.removeAll txs) readySite).mempool.ready.toList ∧
      (∃ signer hash,
        (PoolCall.removals (PoolCall.removeAll order) readySite).count (signer, hash) = 1 ∧
        (PoolCall.removals (PoolCall.removeAll txs) readySite).count (signer, hash) = 1) ∧
      (PoolCall.after (PoolCall.removeAll [signedBid]) readySite).mempool.ready.toList = [] := by
  have hs := reachable_readySite
  have hready := readyTxs_readySite
  generalize readySite = s at hs hready ⊢
  intro unsigned txs order
  have horder : order.Perm txs := .swap signedBid unsigned [signedBid]
  obtain ⟨hsame, -, -, hfound, -⟩ := removals_in_any_order s hs txs order horder
  obtain ⟨e, hlist, htx⟩ := List.map_eq_singleton_iff.1 hready
  have hmem : e ∈ s.mempool.ready.toList := hlist ▸ List.mem_singleton_self e
  have hname : signedBid.name? = some (e.signer, e.hash) :=
    htx ▸ (hs.regular.named.ready e hmem).name?_eq
  have hunsigned : unsigned.name? = none := rfl
  have htwo : copies e.signer e.hash txs = 2 := by
    simp [copies, txs, hname, hunsigned]
  have hone : min (copies e.signer e.hash txs)
      (s.mempool.ready.toList.countP (Entry.isFor e.signer e.hash)) = 1 := by
    rw [htwo, hlist, List.countP_singleton, Entry.isFor]
    simp
  obtain ⟨hcount', hcount⟩ := hfound e.signer e.hash
  have hsnapshot : [signedBid] = (Cursor.ofPool s.mempool.ready).rest.1 :=
    hready.symm.trans (Cursor.rest_ofPool s.mempool.ready).symm
  obtain ⟨-, -, -, -, hdrained⟩ := removals_in_any_order s hs [signedBid] [signedBid] (.refl _)
  exact ⟨horder, hsame, ⟨e.signer, e.hash, hcount'.trans hone, hcount.trans hone⟩,
    (hdrained hsnapshot).2⟩

end BidQuorum
