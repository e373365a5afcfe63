import BidQuorum.Proofs.Extend

set_option autoImplicit false

/-! # Mempools that come about

What a mempool can be is what calls can make of an empty one. Such a mempool has both pools indexed,
and each entry in it is kept under the signer and the hash of its own transaction
(`Mempool.Reachable.regular`). -/

namespace BidQuorum

/-! ## Calls on named entries -/

namespace PlainPools

variable {l l' : PlainPools} {tx : Transaction}

/-- A transaction that has a name is inserted under it. -/
theorem insert_of_identify {signer : Address} {hash : TxHash}
    (h : Mempool.identify tx = .ok (signer, hash)) :
    l.insert tx = .ok ⟨l.pending ++ [⟨signer, Mempool.pendingPriority, hash, tx⟩], l.ready⟩ := by
  rw [insert_eq, h]
  rfl

theorem insert_eq_ok (h : l.insert tx = .ok l') :
    ∃ e : Entry, e.tx = tx ∧ e.Named ∧ l' = ⟨l.pending ++ [e], l.ready⟩ := by
  rw [insert_eq] at h
  split at h
  · cases h
  · next signer hash hname =>
      cases h
      exact ⟨⟨signer, 0, hash, tx⟩, rfl, hname, rfl⟩

theorem promote_eq_ok (h : l.promote tx = .ok l') :
    ∃ signer hash, ∃ e ∈ l.pending, e.isFor signer hash ∧
      Mempool.identify tx = .ok (signer, hash) ∧
      l' = ⟨l.pending.eraseP (Entry.isFor signer hash), l.ready ++ [e.promoted]⟩ := by
  rw [promote_eq] at h
  split at h
  · cases h
  · next signer hash hname =>
      split at h
      · cases h
      · next e he =>
          cases h
          exact ⟨signer, hash, e, List.mem_of_find?_eq_some he, List.find?_some he, hname, rfl⟩

theorem remove_eq_ok (h : l.remove tx = .ok l') :
    ∃ signer hash, Mempool.identify tx = .ok (signer, hash) ∧
      (∃ e ∈ l.ready, e.isFor signer hash) ∧
      l' = ⟨l.pending, l.ready.eraseP (Entry.isFor signer hash)⟩ := by
  rw [remove_eq] at h
  split at h
  · cases h
  · next signer hash hname =>
      split at h
      · cases h
      · next e he =>
          cases h
          exact ⟨signer, hash, hname, ⟨e, List.mem_of_find?_eq_some he, List.find?_some he⟩, rfl⟩

/-- Every entry goes by the name of its transaction. -/
structure AllNamed (l : PlainPools) : Prop where
  pending : ∀ e ∈ l.pending, e.Named
  ready : ∀ e ∈ l.ready, e.Named

theorem AllNamed.apply (hl : l.AllNamed) {c : PoolCall} (h : l.apply c = .ok l') : l'.AllNamed := by
  cases c with
  | insert tx =>
      obtain ⟨e, -, hnamed, rfl⟩ := insert_eq_ok h
      refine ⟨fun x hx => ?_, hl.ready⟩
      rcases List.mem_append.1 hx with hold | hnew
      · exact hl.pending x hold
      · exact List.mem_singleton.1 hnew ▸ hnamed
  | promote tx =>
      obtain ⟨signer, hash, e, he, -, -, rfl⟩ := promote_eq_ok h
      refine ⟨fun x hx => hl.pending x (List.mem_of_mem_eraseP hx), fun x hx => ?_⟩
      rcases List.mem_append.1 hx with hold | hnew
      · exact hl.ready x hold
      · exact List.mem_singleton.1 hnew ▸ hl.pending e he
  | remove tx =>
      obtain ⟨signer, hash, -, -, rfl⟩ := remove_eq_ok h
      exact ⟨hl.pending, fun x hx => hl.ready x (List.mem_of_mem_eraseP hx)⟩

end PlainPools

/-! ## Reachable mempools -/

namespace Mempool

/-- A mempool that calls can make of an empty one. -/
inductive Reachable : Mempool → Prop
  | empty : Reachable .empty
  | call {m : Mempool} (before : Reachable m) {c : PoolCall} {r : Change} (h : c.change m = .ok r) :
      Reachable r.mempool

/-- Both pools are indexed, and every entry goes by the name of its transaction. -/
structure Regular (m : Mempool) : Prop where
  indexed : m.Indexed
  named : m.plain.AllNamed

theorem regular_empty : empty.Regular := ⟨indexed_empty, ⟨nofun, nofun⟩⟩

theorem Regular.change {m : Mempool} (hm : m.Regular) {c : PoolCall} {r : Change}
    (h : c.change m = .ok r) : r.mempool.Regular := by
  rcases c.change_cases hm.indexed with ⟨e, herror, -⟩ | ⟨signer, m', -, hok, hplain, hindexed⟩
  · rw [h] at herror
    cases herror
  · rw [h] at hok
    cases hok
    exact ⟨hindexed, hm.named.apply hplain⟩

theorem Reachable.regular {m : Mempool} (hm : m.Reachable) : m.Regular := by
  induction hm with
  | empty => exact regular_empty
  | call before h ih => exact ih.change h

/-- Bids that are pending can be written. -/
theorem Reachable.fits_bids_pendingTxs {m : Mempool} (hm : m.Reachable) :
    ∀ b ∈ m.pendingTxs.flatMap Transaction.bids, b.Fits :=
  Mempool.fits_bids_pendingTxs hm.regular.named.pending

/-- What calls make of a reachable mempool is reachable. -/
theorem Reachable.run {σ : Type} {s : Site σ} (hs : s.mempool.Reachable) (c : PoolCall) :
    (c.run s).2.mempool.Reachable := by
  rw [PoolCall.run_eq_call, Action.call]
  cases hchange : c.change s.mempool with
  | error e => exact hs
  | ok r => exact hs.call hchange

end Mempool

end BidQuorum
