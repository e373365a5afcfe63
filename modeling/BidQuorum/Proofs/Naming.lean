import BidQuorum.Proofs.Drain

set_option autoImplicit false

/-! # A transaction's name stands for it

A call on a mempool names a transaction, and the pools are searched for entries of that name, that is of
the same first signer and the same hash. No two transactions are compared on the way. Still, what is
found is an entry of the very transaction, as long as SHA-256 does not collide on the encodings of the
transactions at hand (`promote_remove_iff_held`).

Two facts carry this. Every entry of a reachable mempool is kept under the name of its own transaction
(`Mempool.Reachable.regular`). And encodings are read back, so transactions with the same encoding are
equal: the same messages, and the same signatures in the same order, including those that do not
verify. -/

namespace BidQuorum

/-! ## Hashes -/

/-- SHA-256 does not collide on the encodings of the transactions. -/
def Transaction.HashedApart (txs : List Transaction) : Prop :=
  ∀ a ∈ txs, ∀ b ∈ txs,
    sha256 (format.encode a) = sha256 (format.encode b) → format.encode a = format.encode b

/-- The hash tells such transactions apart, as long as they can be written. -/
theorem Transaction.HashedApart.eq_of_hash_eq {txs : List Transaction} (h : HashedApart txs)
    {a b : Transaction} (ha : a ∈ txs) (hb : b ∈ txs) (hafits : a.Fits) (hbfits : b.Fits)
    (hab : a.hash = b.hash) : a = b := by
  have hencode := h a ha b hb (congrArg TxHash.octets hab)
  exact (readsBack_format.encode_inj hafits hbfits).1 hencode

theorem Transaction.HashedApart.mono {txs others : List Transaction} (h : HashedApart txs)
    (hsub : others ⊆ txs) : HashedApart others :=
  fun a ha b hb => h a (hsub ha) b (hsub hb)

/-! ## Entries -/

/-- A transaction that somebody has signed goes by its hash, unless it is too long to have one. -/
theorem Mempool.identify_of_signed {tx : Transaction} (h : tx.verifiedSigners ≠ []) :
    (tx.Fits ∧ ∃ signer, identify tx = .ok (signer, tx.hash)) ∨
    (¬ tx.Fits ∧ identify tx = .error (.unhashable Format.tooLong)) := by
  obtain ⟨signer, rest, hsigners⟩ := List.exists_cons_of_ne_nil h
  rw [identify, hsigners]
  by_cases hfits : tx.Fits
  · exact .inl ⟨hfits, signer.address, by simp only [Transaction.computeHash_of_fits hfits]⟩
  · exact .inr ⟨hfits, by simp only [Transaction.computeHash_of_not_fits hfits]⟩

theorem Entry.Named.verifiedSigners_ne_nil {e : Entry} (he : e.Named) :
    e.tx.verifiedSigners ≠ [] := by
  intro hnone
  rw [Named, Mempool.identify, hnone] at he
  cases he

/-- If the hash tells them apart, the entries of a transaction's name are those that hold it. -/
theorem Entry.Named.isFor_iff {e : Entry} (he : e.Named) {tx : Transaction} {signer : Address}
    {hash : TxHash} (hname : Mempool.identify tx = .ok (signer, hash))
    (hapart : e.tx.hash = tx.hash → e.tx = tx) : e.isFor signer hash ↔ e.tx = tx := by
  constructor
  · intro hfor
    have hhash : e.hash = hash := by
      rw [isFor, Bool.and_eq_true] at hfor
      exact beq_iff_eq.1 hfor.2
    apply hapart
    rw [← Mempool.hash_of_identify he, hhash, Mempool.hash_of_identify hname]
  · rintro rfl
    cases he.symm.trans hname
    simp [isFor]

/-! ## Taking an entry out -/

/-- The oldest of the entries that hold the transaction is `e`, and without it the others are left. -/
def OldestHolding (tx : Transaction) (entries : List Entry) (e : Entry) (others : List Entry) : Prop :=
  ∃ older newer, entries = older ++ e :: newer ∧ others = older ++ newer ∧ e.tx = tx ∧
    ∀ x ∈ older, x.tx ≠ tx

theorem OldestHolding.mem {tx : Transaction} {entries others : List Entry} {e : Entry}
    (h : OldestHolding tx entries e others) : tx ∈ entries.map Entry.tx := by
  obtain ⟨older, newer, rfl, -, rfl, -⟩ := h
  exact List.mem_map_of_mem (List.mem_append_right _ List.mem_cons_self)

/-- If the hash tells it apart from those in the pool, a transaction is found by its name exactly if the
pool holds it, and it is then taken out in its oldest entry. -/
theorem Pool.Indexed.take?_holding {p : Pool} (hp : p.Indexed) (hnamed : ∀ e ∈ p.toList, e.Named)
    {tx : Transaction} (hapart : ∀ e ∈ p.toList, e.tx.hash = tx.hash → e.tx = tx)
    {signer : Address} {hash : TxHash} (hname : Mempool.identify tx = .ok (signer, hash)) :
    (p.take? signer hash = none ∧ tx ∉ p.toList.map Entry.tx) ∨
    ∃ e rest, p.take? signer hash = some (e, rest) ∧ OldestHolding tx p.toList e rest.toList := by
  have hfor : ∀ e ∈ p.toList, (e.isFor signer hash ↔ e.tx = tx) := fun e he =>
    (hnamed e he).isFor_iff hname (hapart e he)
  rcases hp.take?_cases signer hash with
    ⟨hnone, hall⟩ | ⟨older, e, newer, rest, hsome, hlist, holder, hfound, hrest, -⟩
  · refine .inl ⟨hnone, fun hmem => ?_⟩
    obtain ⟨e, he, htx⟩ := List.mem_map.1 hmem
    exact hall e he ((hfor e he).2 htx)
  · refine .inr ⟨e, rest, hsome, older, newer, hlist, hrest, ?_, fun x hx htx => ?_⟩
    · exact (hfor e (hlist ▸ List.mem_append_right _ List.mem_cons_self)).1 hfound
    · exact holder x hx ((hfor x (hlist ▸ List.mem_append_left _ hx)).2 htx)

/-! ## Calls -/

namespace Mempool

variable {m : Mempool} {tx : Transaction}

/-- A call that fails has found nothing. -/
theorem iff_of_error {result : Except MempoolError Change} {e : MempoolError}
    (h : result = .error e) {held : Prop} (hheld : ¬ held) {moved : Change → Prop} :
    ((∃ c, result = .ok c) ↔ held) ∧ ∀ c, result = .ok c → moved c := by
  subst h
  exact ⟨iff_of_false nofun hheld, nofun⟩

/-- A transaction is promoted exactly if it is pending, and then in its oldest entry. -/
theorem Regular.promote_holding (hm : m.Regular) (hsigned : tx.verifiedSigners ≠ [])
    (hapart : tx.Fits → ∀ e ∈ m.pending.toList, e.tx.hash = tx.hash → e.tx = tx) :
    ((∃ c, m.promote tx = .ok c) ↔ tx ∈ m.pendingTxs) ∧
    ∀ c, m.promote tx = .ok c →
      ∃ e, OldestHolding tx m.pending.toList e c.mempool.pending.toList ∧
        c.mempool.ready.toList = m.ready.toList ++ [e.promoted] := by
  rcases identify_of_signed hsigned with ⟨hfits, signer, hname⟩ | ⟨hlong, hname⟩
  -- All that is pending has a hash, so what is too long for one is not.
  case inr =>
    exact iff_of_error (e := .unhashable Format.tooLong) (by simp only [promote, hname]) fun hmem =>
      hlong (Entry.fits_of_mem_map_tx hm.named.pending hmem)
  rcases hm.indexed.pending.take?_holding hm.named.pending (hapart hfits) hname with
    ⟨hnone, hmem⟩ | ⟨e, rest, hsome, hholding⟩
  · exact iff_of_error (e := .notFound tx.hash) (by simp only [promote, hname, hnone]) hmem
  · have hok : m.promote tx
        = .ok ⟨⟨rest, m.ready.push e.promoted⟩, .promoted signer tx.hash⟩ := by
      simp only [promote, hname, hsome]
      rfl
    rw [hok]
    refine ⟨iff_of_true ⟨_, rfl⟩ hholding.mem, fun c hc => ?_⟩
    cases hc
    exact ⟨e, hholding, hm.indexed.ready.toList_push e.promoted⟩

/-- A transaction is removed exactly if it is ready, and then in its oldest entry. -/
theorem Regular.remove_holding (hm : m.Regular) (hsigned : tx.verifiedSigners ≠ [])
    (hapart : tx.Fits → ∀ e ∈ m.ready.toList, e.tx.hash = tx.hash → e.tx = tx) :
    ((∃ c, m.remove tx = .ok c) ↔ tx ∈ m.readyTxs) ∧
    ∀ c, m.remove tx = .ok c →
      ∃ e, OldestHolding tx m.ready.toList e c.mempool.ready.toList ∧
        c.mempool.pending = m.pending := by
  rcases identify_of_signed hsigned with ⟨hfits, signer, hname⟩ | ⟨hlong, hname⟩
  case inr =>
    exact iff_of_error (e := .unhashable Format.tooLong) (by simp only [remove, hname]) fun hmem =>
      hlong (Entry.fits_of_mem_map_tx hm.named.ready hmem)
  rcases hm.indexed.ready.take?_holding hm.named.ready (hapart hfits) hname with
    ⟨hnone, hmem⟩ | ⟨e, rest, hsome, hholding⟩
  · exact iff_of_error (e := .notFound tx.hash) (by simp only [remove, hname, hnone]) hmem
  · have hok : m.remove tx = .ok ⟨⟨m.pending, rest⟩, .removed signer tx.hash⟩ := by
      simp only [remove, hname, hsome]
    rw [hok]
    refine ⟨iff_of_true ⟨_, rfl⟩ hholding.mem, fun c hc => ?_⟩
    cases hc
    exact ⟨e, hholding, rfl⟩

end Mempool

/-- **Calls act on the transaction that they name.** In a reachable mempool, a transaction that somebody
has signed is promoted exactly if the pending pool holds it, and removed exactly if the ready pool does.
It is the oldest entry that holds it, and no other, that goes to the back of the ready pool or is taken
out. Entries are the same exactly if they hold the same transaction. This takes that SHA-256 does not
collide on the encodings of the transaction and of those in the pools. -/
theorem promote_remove_iff_held {m : Mempool} (hm : m.Reachable) {tx : Transaction}
    (hsigned : tx.verifiedSigners ≠ [])
    (hapart : Transaction.HashedApart (tx :: (m.pendingTxs ++ m.readyTxs))) :
    ((∃ c, m.promote tx = .ok c) ↔ tx ∈ m.pendingTxs) ∧
    (∀ c, m.promote tx = .ok c →
      ∃ e, OldestHolding tx m.pending.toList e c.mempool.pending.toList ∧
        c.mempool.ready.toList = m.ready.toList ++ [e.promoted]) ∧
    ((∃ c, m.remove tx = .ok c) ↔ tx ∈ m.readyTxs) ∧
    (∀ c, m.remove tx = .ok c →
      ∃ e, OldestHolding tx m.ready.toList e c.mempool.ready.toList ∧
        c.mempool.pending = m.pending) ∧
    ∀ a ∈ m.pending.toList ++ m.ready.toList, ∀ b ∈ m.pending.toList ++ m.ready.toList,
      (a.same b ↔ a.tx = b.tx) := by
  have hregular := hm.regular
  have hheld : ∀ e ∈ m.pending.toList ++ m.ready.toList,
      e.tx ∈ tx :: (m.pendingTxs ++ m.readyTxs) := by
    intro e he
    rw [Mempool.pendingTxs, Mempool.readyTxs, ← List.map_append]
    exact List.mem_cons_of_mem _ (List.mem_map_of_mem he)
  have hnamed : ∀ e ∈ m.pending.toList ++ m.ready.toList, e.Named :=
    List.forall_mem_append.2 ⟨hregular.named.pending, hregular.named.ready⟩
  have htx : tx.Fits → ∀ e ∈ m.pending.toList ++ m.ready.toList, e.tx.hash = tx.hash → e.tx = tx :=
    fun hfits e he => hapart.eq_of_hash_eq (hheld e he) List.mem_cons_self (hnamed e he).fits hfits
  have hsame : ∀ a ∈ m.pending.toList ++ m.ready.toList,
      ∀ b ∈ m.pending.toList ++ m.ready.toList, (a.same b ↔ a.tx = b.tx) := fun a ha b hb =>
    (hnamed a ha).isFor_iff (hnamed b hb)
      (hapart.eq_of_hash_eq (hheld a ha) (hheld b hb) (hnamed a ha).fits (hnamed b hb).fits)
  obtain ⟨hpromote, hmoved⟩ := hregular.promote_holding hsigned fun hfits =>
    (List.forall_mem_append.1 (htx hfits)).1
  obtain ⟨hremove, hcut⟩ := hregular.remove_holding hsigned fun hfits =>
    (List.forall_mem_append.1 (htx hfits)).2
  exact ⟨hpromote, hmoved, hremove, hcut, hsame⟩

/-- The transaction with its signatures twice. -/
def Transaction.signedTwice (tx : Transaction) : Transaction :=
  ⟨tx.messages, tx.signatures ++ tx.signatures⟩

/-- Where only the signed bid is pending, it is promoted. The same messages with its signature twice are
another transaction, which is not found. -/
theorem promote_signedBid_only :
    let m := (insertedSite signedBid).mempool
    (∃ c, m.promote signedBid = .ok c) ∧ ¬ ∃ c, m.promote signedBid.signedTwice = .ok c := by
  have hapart : Transaction.HashedApart [signedBid.signedTwice, signedBid] := by
    unfold Transaction.HashedApart
    decide +kernel
  have hone : signedBid.signatures.length = 1 := rfl
  have hpending := pendingTxs_signedBid
  -- No more is needed of the signed bid, and its signature is not to be made again.
  generalize signedBid = tx at hapart hone hpending ⊢
  intro m
  have hm : m.Reachable := reachable_insertedSite tx
  have hheld : m.pendingTxs ++ m.readyTxs = [tx] := by
    rw [readyTxs_insertedSite, hpending, List.append_nil]
  have hsigned : tx.verifiedSigners ≠ [] := by
    have hmem : tx ∈ m.pending.toList.map Entry.tx := by
      show tx ∈ m.pendingTxs
      rw [hpending]
      exact List.mem_singleton_self tx
    obtain ⟨e, he, htx⟩ := List.mem_map.1 hmem
    exact htx ▸ (hm.regular.named.pending e he).verifiedSigners_ne_nil
  have htwice : tx.signedTwice.verifiedSigners ≠ [] := by
    have happend : tx.signedTwice.verifiedSigners = tx.verifiedSigners ++ tx.verifiedSigners := by
      rw [Transaction.verifiedSigners, Transaction.verifiedSigners, Transaction.signedTwice]
      split
      · exact List.filterMap_append
      · rfl
    rw [happend]
    exact List.append_ne_nil_of_left_ne_nil hsigned _
  have hne : tx.signedTwice ≠ tx := by
    intro heq
    have hlength : (tx.signatures ++ tx.signatures).length = tx.signatures.length :=
      congrArg (fun x => x.signatures.length) heq
    rw [List.length_append, hone] at hlength
    omega
  have hcopies : [tx, tx] ⊆ [tx.signedTwice, tx] := by simp
  obtain ⟨hpromote, -⟩ := promote_remove_iff_held hm hsigned (hheld ▸ hapart.mono hcopies)
  obtain ⟨hpromote', -⟩ := promote_remove_iff_held hm htwice (hheld ▸ hapart)
  rw [hpromote, hpromote', hpending]
  exact ⟨List.mem_singleton_self _, fun hmem => hne (List.mem_singleton.1 hmem)⟩

end BidQuorum
