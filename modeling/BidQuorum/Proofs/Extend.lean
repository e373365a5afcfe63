import BidQuorum.Proofs.Action
import BidQuorum.Proofs.Mempool

set_option autoImplicit false

/-! # Draining the pending pool

To extend its vote a validator promotes the pending transactions one by one, each found again under
the signer and the hash of its entry. It finds the very entry it is at: that entry is the first of the
pending ones, so nothing before it could be taken for it, whatever copies come after. Hence a pass
moves all that is pending behind what is ready, in order (`Validator.extendVote_spec`). -/

namespace BidQuorum

/-! ## Entries and their transactions -/

/-- The entry as it is in the ready pool. -/
def Entry.promoted (e : Entry) : Entry := { e with priority := Mempool.readyPriority }

/-- The entry is kept under the signer and the hash of its own transaction. -/
def Entry.Named (e : Entry) : Prop := Mempool.identify e.tx = .ok (e.signer, e.hash)

/-- A transaction that is kept in a pool has a hash, so it can be written. -/
theorem Entry.Named.fits {e : Entry} (he : e.Named) : e.tx.Fits := by
  obtain ⟨_, -, hfits, -⟩ := Mempool.identify_eq_ok_iff.1 he
  exact hfits

theorem Entry.fits_of_mem_map_tx {es : List Entry} (hes : ∀ e ∈ es, e.Named) {tx : Transaction}
    (htx : tx ∈ es.map Entry.tx) : tx.Fits := by
  obtain ⟨e, he, rfl⟩ := List.mem_map.1 htx
  exact (hes e he).fits

theorem Mempool.fits_bids_pendingTxs {m : Mempool} (hm : ∀ e ∈ m.pending.toList, e.Named) :
    ∀ b ∈ m.pendingTxs.flatMap Transaction.bids, b.Fits :=
  List.forall_mem_flatMap.2 fun _ htx => (Entry.fits_of_mem_map_tx hm htx).bids

/-- What a vote extension says of a transaction: the canonical bytes of its bids. -/
def Transaction.witness (tx : Transaction) : List Bytes := tx.bids.map Bid.canonicalBytes

/-- The first pending transaction is promoted as it is. -/
theorem PlainPools.promote_head {l : PlainPools} {e : Entry} {rest : List Entry}
    (hpending : l.pending = e :: rest) (he : e.Named) :
    l.promote e.tx = .ok ⟨rest, l.ready ++ [e.promoted]⟩ := by
  have hfor : e.isFor e.signer e.hash = true := by
    rw [Entry.isFor, beq_self_eq_true, beq_self_eq_true, Bool.and_self]
  rw [Entry.Named] at he
  rw [promote_eq, he]
  simp only [hpending, List.find?_cons_of_pos hfor, List.eraseP_cons_of_pos hfor]
  rfl

/-- At a site, the promotion of the first pending transaction moves its entry and tells of it. -/
theorem Action.promoteTx_head {σ : Type} {s : Site σ} (hs : s.mempool.Indexed) {e : Entry}
    {rest : List Entry} (hpending : s.mempool.pending.toList = e :: rest) (he : e.Named) :
    ∃ s' : Site σ, promoteTx e.tx s = (.ok e.hash, s') ∧
      s'.mempool.plain = ⟨rest, s.mempool.ready.toList ++ [e.promoted]⟩ ∧ s'.mempool.Indexed ∧
      s'.events = s.events ++ [.pool (.promoted e.signer e.hash)] := by
  have hhead := PlainPools.promote_head (l := s.mempool.plain) hpending he
  rcases PoolCall.run_cases (.promote e.tx) hs with
    ⟨error, hplain, -⟩ | ⟨signer, s', hname, hplain, hrun, hindexed, hevents⟩
  · cases hhead.symm.trans hplain
  · have hhash : e.hash = e.tx.hash := Mempool.hash_of_identify he
    obtain ⟨rfl, -⟩ := Prod.mk.inj (Except.ok.inj (hname.symm.trans he))
    rw [hhash]
    exact ⟨s', hrun, Except.ok.inj (hplain.symm.trans hhead), hindexed, hevents⟩

namespace Validator

variable {σ : Type} {v : Validator σ}

/-! ## One transaction -/

/-- A bid that can be written goes into the extension. -/
theorem gatherMessages_bid (height : Height) {bid : Bid} (hbid : bid.Fits) (rest : List Message)
    (g : Gathered) :
    v.gatherMessages height (.bid bid :: rest) g
      = v.gatherMessages height rest { g with bids := g.bids ++ [bid.canonicalBytes] } := by
  rw [gatherMessages, Bid.write, Format.write_of_fits hbid]
  rfl

/-- The bids of a transaction are gathered in order, and the number of promotions stays. -/
theorem gatherMessages_spec (height : Height) {messages : List Message}
    (hfits : ∀ b ∈ messages.filterMap Message.bid?, b.Fits) (g : Gathered) (s : Site σ) :
    let gathered := (v.gatherMessages height messages g s).1
    gathered.bids = g.bids ++ (messages.filterMap Message.bid?).map Bid.canonicalBytes ∧
      gathered.promoted = g.promoted := by
  induction messages generalizing g s with
  | nil => exact ⟨(List.append_nil _).symm, rfl⟩
  | cons m rest ih =>
      cases m with
      | bid bid =>
          obtain ⟨hbid, hrest⟩ := List.forall_mem_cons.1 hfits
          obtain ⟨hbids, hpromoted⟩ := ih hrest { g with bids := g.bids ++ [bid.canonicalBytes] } s
          rw [gatherMessages_bid height hbid]
          refine ⟨?_, hpromoted⟩
          rw [hbids, List.append_assoc]
          rfl
      | foreign message =>
          rw [gatherMessages, Action.bind_apply]
          exact ih hfits _ _

/-- If the next entry to gather is the first pending one, it moves behind the ready ones, and the pass
goes on from there. -/
theorem gatherAll_cons
    (hv : ∀ x ∈ v.subscribers.entries, ∀ height message, (x.2.extend height message).LeavesMempool)
    (height : Height) {e : Entry} (he : e.Named) (txs : List Transaction) (g : Gathered)
    {s : Site σ} (hs : s.mempool.Indexed) {rest : List Entry}
    (hpending : s.mempool.pending.toList = e :: rest) :
    let gathered := v.gatherMessages height e.tx.messages g s
    ∃ s' : Site σ, v.gatherAll height (e.tx :: txs) g s
        = v.gatherAll height txs { gathered.1 with promoted := gathered.1.promoted + 1 } s' ∧
      s'.mempool.plain = ⟨rest, s.mempool.ready.toList ++ [e.promoted]⟩ ∧ s'.mempool.Indexed ∧
      s'.events = gathered.2.events ++ [.pool (.promoted e.signer e.hash)] := by
  intro gathered
  -- After the messages the mempool is as before, so `e` is still the first pending entry.
  have hleaves : gathered.2.mempool = s.mempool :=
    Action.composable_leavesMempool.gatherMessages hv height e.tx.messages g s
  have hs' : gathered.2.mempool.Indexed := hleaves ▸ hs
  have hpending' : gathered.2.mempool.pending.toList = e :: rest := hleaves ▸ hpending
  obtain ⟨s', hpromote, hplain, hindexed, hevents⟩ := Action.promoteTx_head hs' hpending' he
  rw [hleaves] at hplain
  refine ⟨s', ?_, hplain, hindexed, hevents⟩
  rw [gatherAll, Action.bind_apply, Action.bind_apply, hpromote]

/-! ## The whole pass -/

/-- Whatever comes of promoting them, the bids of all transactions are gathered. -/
theorem bids_gatherAll (v : Validator σ) (height : Height) {txs : List Transaction}
    (hfits : ∀ b ∈ txs.flatMap Transaction.bids, b.Fits) (g : Gathered) (s : Site σ) :
    (v.gatherAll height txs g s).1.bids = g.bids ++ txs.flatMap Transaction.witness := by
  induction txs generalizing g s with
  | nil => exact (List.append_nil _).symm
  | cons tx txs ih =>
      obtain ⟨htx, hrest⟩ := List.forall_mem_append.1 (List.flatMap_cons ▸ hfits)
      have hmessages := (gatherMessages_spec (v := v) height htx g s).1
      rw [gatherAll, Action.bind_apply, Action.bind_apply, List.flatMap_cons, ← List.append_assoc]
      generalize v.gatherMessages height tx.messages g s = gathered at hmessages ⊢
      generalize Action.promoteTx tx gathered.2 = promoted
      obtain ⟨_ | hash, after⟩ := promoted
      · simp only [Action.bind_apply, ih hrest, hmessages]
        rfl
      · simp only [ih hrest, hmessages]
        rfl

/-- Gathering transactions that are first in the pending pool moves their entries behind the ready
ones. Nothing but this is published, unless the modules publish something. -/
theorem gatherAll_spec
    (hv : ∀ x ∈ v.subscribers.entries, ∀ height message, (x.2.extend height message).LeavesMempool)
    (height : Height) {es later : List Entry} (hes : ∀ e ∈ es, e.Named) (g : Gathered) (s : Site σ)
    (hs : s.mempool.Indexed) (hpending : s.mempool.pending.toList = es ++ later) :
    let done := v.gatherAll height (es.map Entry.tx) g s
    done.1.promoted = g.promoted + es.length ∧
    done.2.mempool.plain = ⟨later, s.mempool.ready.toList ++ es.map Entry.promoted⟩ ∧
    done.2.mempool.Indexed ∧
    (v.ContributesDiscreetly →
      done.2.events = s.events ++ es.map fun e => .pool (.promoted e.signer e.hash)) := by
  induction es generalizing g s with
  | nil =>
      exact ⟨rfl, by simp [gatherAll, Mempool.plain, hpending], hs,
        fun _ => (List.append_nil _).symm⟩
  | cons e es ih =>
      obtain ⟨he, hes⟩ := List.forall_mem_cons.1 hes
      have hpromoted := (gatherMessages_spec (v := v) height he.fits.bids g s).2
      obtain ⟨s', hgather, hplain, hindexed, hevents⟩ :=
        gatherAll_cons hv height he (es.map Entry.tx) g hs hpending
      have hready : s'.mempool.ready.toList = s.mempool.ready.toList ++ [e.promoted] :=
        congrArg PlainPools.ready hplain
      obtain ⟨hpromoted', hplain', hindexed', hevents'⟩ :=
        ih hes _ s' hindexed (congrArg PlainPools.pending hplain)
      rw [List.map_cons, hgather]
      refine ⟨?_, ?_, hindexed', fun hdiscreet => ?_⟩
      · rw [hpromoted', List.length_cons]
        show (v.gatherMessages height e.tx.messages g s).1.promoted + 1 + es.length = _
        omega
      · rw [hplain', hready, List.append_assoc]
        rfl
      · have hquiet := Action.sequential_discreet.gatherMessages hdiscreet height e.tx.messages g s
        rw [hevents' hdiscreet, hevents, hquiet.2, List.append_assoc]
        rfl

/-- The extension that a validator makes for a height at a site. -/
def attached (v : Validator σ) (height : Height) (s : Site σ) : VoteExtension :=
  let g := (v.gatherAll height s.mempool.pendingTxs {} s).1
  ⟨height, g.bids, g.extraInfo⟩

/-- An extension carries the bids of all that was pending, whatever the modules do meanwhile. -/
theorem bids_attached (v : Validator σ) (height : Height) {s : Site σ}
    (hfits : ∀ b ∈ s.mempool.pendingTxs.flatMap Transaction.bids, b.Fits) :
    (v.attached height s).bids = s.mempool.pendingTxs.flatMap Transaction.witness :=
  (v.bids_gatherAll height hfits _ s).trans (List.nil_append _)

/-- Extending a vote is a pass over what is pending, after which the extension is told of if it can be
written. -/
theorem extendVote_apply (v : Validator σ) (height : Height) (s : Site σ) :
    let pass := v.gatherAll height s.mempool.pendingTxs {} s
    let extension := v.attached height s
    v.extendVote height s =
      if extension.Fits then (.ok extension.toBytes, { pass.2 with
        events := pass.2.events ++ [.validator (.extendedVote height extension.bids.length
          extension.extraInfo.keys pass.1.promoted)] })
      else (.error (.unwritable Format.tooLong), pass.2) := by
  intro pass extension
  have hmempool : (Action.mempool : Action σ Mempool) s = (s.mempool, s) := rfl
  rw [extendVote, Action.bind_apply, hmempool, Action.bind_apply]
  by_cases hfits : extension.Fits
  · have hwrite : (VoteExtension.mk height pass.1.bids pass.1.extraInfo).write
        = .ok extension.toBytes := Format.write_of_fits hfits
    rw [hwrite, if_pos hfits]
    rfl
  · have hwrite : (VoteExtension.mk height pass.1.bids pass.1.extraInfo).write
        = .error Format.tooLong := Format.write_of_not_fits hfits
    rw [hwrite, if_neg hfits]
    rfl

theorem fst_extendVote (v : Validator σ) (height : Height) (s : Site σ) :
    let extension := v.attached height s
    (v.extendVote height s).1 =
      if extension.Fits then .ok extension.toBytes else .error (.unwritable Format.tooLong) := by
  by_cases hfits : (v.attached height s).Fits
  · simp only [extendVote_apply, if_pos hfits]
  · simp only [extendVote_apply, if_neg hfits]

theorem extendVote_of_fits {height : Height} {s : Site σ} (h : (v.attached height s).Fits) :
    (v.extendVote height s).1 = .ok (v.attached height s).toBytes := by
  rw [fst_extendVote, if_pos h]

theorem mempool_extendVote (v : Validator σ) (height : Height) (s : Site σ) :
    (v.extendVote height s).2.mempool
      = (v.gatherAll height s.mempool.pendingTxs {} s).2.mempool := by
  rw [extendVote_apply]
  split <;> rfl

/-- The vote carries the payload, if there is one. -/
theorem extend_apply (v : Validator σ) (height : Height) (s : Site σ) :
    v.extend height s = (match (v.extendVote height s).1 with
      | .ok payload => payload
      | .error _ => [], (v.extendVote height s).2) := by
  rw [extend, Action.bind_apply]
  cases (v.extendVote height s).1 <;> rfl

/-- Extending a vote witnesses all pending transactions, in order, and makes them ready. -/
theorem extendVote_spec (hv : v.ModulesLeaveMempool) (height : Height) (s : Site σ)
    (hs : s.mempool.Indexed) (hnamed : ∀ e ∈ s.mempool.pending.toList, e.Named) :
    (v.attached height s).bids = s.mempool.pendingTxs.flatMap Transaction.witness ∧
    (v.extendVote height s).2.mempool.plain
      = ⟨[], s.mempool.ready.toList ++ s.mempool.pending.toList.map Entry.promoted⟩ ∧
    (v.extendVote height s).2.mempool.Indexed := by
  obtain ⟨-, hplain, hindexed, -⟩ :=
    gatherAll_spec (fun x hx => (hv x hx).extend) height hnamed {} s hs (List.append_nil _).symm
  rw [mempool_extendVote]
  exact ⟨v.bids_attached height (Mempool.fits_bids_pendingTxs hnamed), hplain, hindexed⟩

/-- What was pending is ready afterwards, behind what was ready before. -/
theorem readyTxs_extendVote (hv : v.ModulesLeaveMempool) (height : Height) (s : Site σ)
    (hs : s.mempool.Indexed) (hnamed : ∀ e ∈ s.mempool.pending.toList, e.Named) :
    (v.extendVote height s).2.mempool.readyTxs = s.mempool.readyTxs ++ s.mempool.pendingTxs := by
  obtain ⟨-, hplain, -⟩ := extendVote_spec hv height s hs hnamed
  have hready : (v.extendVote height s).2.mempool.ready.toList
      = s.mempool.ready.toList ++ s.mempool.pending.toList.map Entry.promoted :=
    congrArg PlainPools.ready hplain
  rw [Mempool.readyTxs, hready, List.map_append, List.map_map]
  rfl

end Validator

end BidQuorum
