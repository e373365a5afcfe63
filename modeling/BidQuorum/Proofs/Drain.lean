import BidQuorum.Mempool.Cursor
import BidQuorum.Proofs.Witness

set_option autoImplicit false

/-! # Draining while others call

Whoever drains the pending pool takes a snapshot of it and promotes the transactions of the snapshot in
turn, while others go on inserting and removing. A promotion looks for its entry by name, and copies of
it may have come in since; still it moves the entry it is meant for. What is left of the snapshot is
always in front of what was inserted since, so the first entry of the pool is the one whose turn it is
(`drain_amid_calls`). -/

namespace BidQuorum

namespace PoolCall

/-! ## Calls, made one after another -/

variable {σ : Type}

/-- The site after the calls. -/
def after (calls : List PoolCall) (s : Site σ) : Site σ := calls.foldl (fun s c => (c.run s).2) s

/-- The transaction that the call is to promote, if it is such a call. -/
def promotion? : PoolCall → Option Transaction
  | promote tx => some tx
  | insert _ | remove _ => none

/-- The calls that succeed, each with the name it goes by. -/
def successes : List PoolCall → Site σ → List (PoolCall × Address × TxHash)
  | [], _ => []
  | c :: rest, s =>
      match (c.run s).1, Mempool.identify c.tx with
      | .ok _, .ok name => (c, name) :: successes rest (c.run s).2
      | _, _ => successes rest (c.run s).2

/-- The entry that a successful call has put into the pending pool. -/
def arrival? : PoolCall × Address × TxHash → Option Entry
  | (insert tx, signer, hash) => some ⟨signer, Mempool.pendingPriority, hash, tx⟩
  | _ => none

/-- The name under which a successful call has taken an entry out of the ready pool. -/
def removal? : PoolCall × Address × TxHash → Option (Address × TxHash)
  | (remove _, name) => some name
  | _ => none

/-- The entries that the calls insert, in order. -/
def arrivals (calls : List PoolCall) (s : Site σ) : List Entry :=
  (successes calls s).filterMap arrival?

/-- The names that the calls remove, in order. -/
def removals (calls : List PoolCall) (s : Site σ) : List (Address × TxHash) :=
  (successes calls s).filterMap removal?

end PoolCall

/-- What remains of entries when, for each of the names in turn, the first entry of that name is taken
out. -/
def without (es : List Entry) (names : List (Address × TxHash)) : List Entry :=
  names.foldl (fun es name => es.eraseP (Entry.isFor name.1 name.2)) es

namespace PoolCall

section Successes

variable {σ : Type} {c : PoolCall} {s s' : Site σ} {signer : Address} {hash : TxHash}

theorem successes_cons (c : PoolCall) (rest : List PoolCall) (s : Site σ) :
    successes (c :: rest) s = successes [c] s ++ successes rest (c.run s).2 := by
  simp only [successes]
  split <;> rfl

theorem successes_of_error {e : MempoolError} (h : c.run s = (.error e, s)) :
    successes [c] s = [] := by
  rw [successes, h, successes]

theorem successes_of_ok (hname : Mempool.identify c.tx = .ok (signer, hash))
    (h : c.run s = (.ok hash, s')) : successes [c] s = [(c, signer, hash)] := by
  rw [successes, h, hname]
  rfl

theorem arrivals_cons (c : PoolCall) (rest : List PoolCall) (s : Site σ) :
    arrivals (c :: rest) s = arrivals [c] s ++ arrivals rest (c.run s).2 := by
  rw [arrivals, successes_cons, List.filterMap_append]
  rfl

theorem removals_cons (c : PoolCall) (rest : List PoolCall) (s : Site σ) :
    removals (c :: rest) s = removals [c] s ++ removals rest (c.run s).2 := by
  rw [removals, successes_cons, List.filterMap_append]
  rfl

theorem mem_of_mem_successes {calls : List PoolCall} {s : Site σ} {x : PoolCall × Address × TxHash}
    (hx : x ∈ successes calls s) : x.1 ∈ calls := by
  induction calls generalizing s with
  | nil => cases hx
  | cons c rest ih =>
      rw [successes] at hx
      split at hx
      · rcases List.mem_cons.1 hx with rfl | hx
        · exact List.mem_cons_self
        · exact List.mem_cons_of_mem _ (ih hx)
      · exact List.mem_cons_of_mem _ (ih hx)

theorem removals_eq_nil {calls : List PoolCall} {s : Site σ} (h : ∀ tx, remove tx ∉ calls) :
    removals calls s = [] := by
  refine List.filterMap_eq_nil_iff.2 fun x hx => ?_
  have hmem := mem_of_mem_successes hx
  obtain ⟨c, name⟩ := x
  cases c with
  | insert tx => rfl
  | promote tx => rfl
  | remove tx => exact absurd hmem (h tx)

end Successes

theorem reachable_after {σ : Type} (calls : List PoolCall) {s : Site σ}
    (hs : s.mempool.Reachable) : (after calls s).mempool.Reachable := by
  induction calls generalizing s with
  | nil => exact hs
  | cons c rest ih => exact ih (hs.run c)

end PoolCall

/-! ## The pools in the middle of a drain -/

/-- A mempool that is being drained. The entries whose turn is still to come are in front of those that
came later, and once they have had their turn, the ready pool will be as settled. -/
structure Draining (m : Mempool) (turn later settled : List Entry) : Prop where
  indexed : m.Indexed
  named : ∀ e ∈ turn, e.Named
  pending_eq : m.pending.toList = turn ++ later
  ready_eq : m.ready.toList ++ turn.map Entry.promoted = settled

namespace Draining

open PoolCall

variable {σ : Type} {s : Site σ} {turn later settled : List Entry}

/-- What is inserted comes later. -/
theorem insert (h : Draining s.mempool turn later settled) (tx : Transaction) :
    Draining ((PoolCall.insert tx).run s).2.mempool turn (later ++ arrivals [.insert tx] s)
      (without settled (removals [.insert tx] s)) := by
  rcases (PoolCall.insert tx).run_cases h.indexed with
    ⟨e, -, hrun⟩ | ⟨signer, s', hname, hplain, hrun, hindexed, -⟩
  · rw [arrivals, removals, successes_of_error hrun, hrun, List.filterMap_nil, List.append_nil]
    exact h
  · have hlists := Except.ok.inj (hplain.symm.trans (PlainPools.insert_of_identify hname))
    rw [arrivals, removals, successes_of_ok hname hrun, hrun]
    refine ⟨hindexed, h.named, ?_, ?_⟩
    · rw [← List.append_assoc, ← h.pending_eq]
      exact congrArg PlainPools.pending hlists
    · have hready : s'.mempool.ready.toList = s.mempool.ready.toList :=
        congrArg PlainPools.ready hlists
      rw [hready]
      exact h.ready_eq

/-- The entry whose turn it is moves to the place that was meant for it. -/
theorem promote {e : Entry} (h : Draining s.mempool (e :: turn) later settled) :
    Action.promoteTx e.tx s = (.ok e.hash, ((PoolCall.promote e.tx).run s).2) ∧
    ((PoolCall.promote e.tx).run s).2.mempool.plain
      = ⟨turn ++ later, s.mempool.ready.toList ++ [e.promoted]⟩ ∧
    Draining ((PoolCall.promote e.tx).run s).2.mempool turn (later ++ arrivals [.promote e.tx] s)
      (without settled (removals [.promote e.tx] s)) := by
  have he : Mempool.identify (PoolCall.promote e.tx).tx = .ok (e.signer, e.hash) :=
    h.named e List.mem_cons_self
  obtain ⟨s', hanswer, hlists, hindexed, -⟩ := Action.promoteTx_head h.indexed h.pending_eq he
  have hrun : (PoolCall.promote e.tx).run s = (.ok e.hash, s') := hanswer
  have hready : s'.mempool.ready.toList = s.mempool.ready.toList ++ [e.promoted] :=
    congrArg PlainPools.ready hlists
  have hnothing : arrivals [.promote e.tx] s = [] ∧ removals [.promote e.tx] s = [] := by
    rw [arrivals, removals, successes_of_ok he hrun]
    exact ⟨rfl, rfl⟩
  rw [hnothing.1, hnothing.2, hrun, List.append_nil]
  refine ⟨hanswer, hlists, hindexed, fun x hx => h.named x (List.mem_cons_of_mem _ hx),
    congrArg PlainPools.pending hlists, ?_⟩
  rw [hready, List.append_assoc]
  exact h.ready_eq

/-- What is removed is found among the entries that are ready already. -/
theorem remove (h : Draining s.mempool turn later settled) (tx : Transaction) :
    Draining ((PoolCall.remove tx).run s).2.mempool turn (later ++ arrivals [.remove tx] s)
      (without settled (removals [.remove tx] s)) := by
  rcases (PoolCall.remove tx).run_cases h.indexed with
    ⟨e, -, hrun⟩ | ⟨signer, s', hname, hplain, hrun, hindexed, -⟩
  · rw [arrivals, removals, successes_of_error hrun, hrun, List.filterMap_nil, List.append_nil]
    exact h
  · obtain ⟨signer, hash, hname', ⟨e, he, hfor⟩, hlists⟩ := PlainPools.remove_eq_ok hplain
    cases hname.symm.trans hname'
    have hready : s'.mempool.ready.toList
        = s.mempool.ready.toList.eraseP (Entry.isFor signer tx.hash) :=
      congrArg PlainPools.ready hlists
    have hfound : e ∈ s.mempool.ready.toList ∧ e.isFor signer tx.hash := ⟨he, hfor⟩
    rw [arrivals, removals, successes_of_ok hname hrun, hrun]
    refine ⟨hindexed, h.named, ?_, ?_⟩
    · rw [← List.append_assoc, ← h.pending_eq]
      exact (congrArg PlainPools.pending hlists).trans (List.append_nil _).symm
    · rw [hready, ← List.eraseP_append_left hfound.2 _ hfound.1, h.ready_eq]
      rfl

/-- One call, whichever it is. -/
theorem step (h : Draining s.mempool turn later settled) {c : PoolCall} {rest : List PoolCall}
    (hturn : (c :: rest).filterMap promotion? = turn.map Entry.tx) :
    ∃ turn', rest.filterMap promotion? = turn'.map Entry.tx ∧
      Draining (c.run s).2.mempool turn' (later ++ arrivals [c] s)
        (without settled (removals [c] s)) := by
  cases c with
  | insert tx => exact ⟨turn, hturn, h.insert tx⟩
  | remove tx => exact ⟨turn, hturn, h.remove tx⟩
  | promote tx =>
      cases turn with
      | nil => cases hturn
      | cons e turn =>
          obtain ⟨rfl, hrest⟩ := List.cons.inj hturn
          exact ⟨turn, hrest, h.promote.2.2⟩

/-- Calls that promote the transactions whose turn it is, in order. -/
theorem run (h : Draining s.mempool turn later settled) {calls : List PoolCall}
    (hturn : calls.filterMap promotion? = turn.map Entry.tx) :
    Draining (after calls s).mempool [] (later ++ arrivals calls s)
      (without settled (removals calls s)) := by
  -- The calls that remain are made where the first one has led.
  induction calls generalizing s turn later settled with
  | nil =>
      obtain rfl : turn = [] := List.map_eq_nil_iff.1 hturn.symm
      rw [arrivals, removals, successes, List.filterMap_nil, List.append_nil]
      exact h
  | cons c rest ih =>
      obtain ⟨turn', hturn', hstep⟩ := h.step hturn
      have hrest := ih hstep hturn'
      rw [List.append_assoc, ← arrivals_cons] at hrest
      rw [removals_cons, without, List.foldl_append]
      exact hrest

end Draining

/-- The first entries that are pending may be next to have their turn. -/
theorem Mempool.Regular.draining {m : Mempool} (hm : m.Regular) {turn later : List Entry}
    (h : m.pending.toList = turn ++ later) :
    Draining m turn later (m.ready.toList ++ turn.map Entry.promoted) where
  indexed := hm.indexed
  named e he := hm.named.pending e (by
    have hmem : e ∈ m.pending.toList := h ▸ List.mem_append_left later he
    exact hmem)
  pending_eq := h
  ready_eq := rfl

/-- Once those in front of it have been promoted, it is the turn of an entry that was pending. What was
behind it still is, in front of what came later. -/
theorem Mempool.Regular.draining_next {σ : Type} {s : Site σ} (hs : s.mempool.Regular)
    {turn later : List Entry} {e : Entry} (h : s.mempool.pending.toList = turn ++ e :: later)
    {before : List PoolCall} (hbefore : before.filterMap PoolCall.promotion? = turn.map Entry.tx) :
    Draining (PoolCall.after before s).mempool [e] (later ++ PoolCall.arrivals before s)
      ((PoolCall.after before s).mempool.ready.toList ++ [e.promoted]) := by
  have hhere := (hs.draining h).run hbefore
  have hmem : e ∈ s.mempool.pending.toList := h ▸ List.mem_append_right turn List.mem_cons_self
  exact ⟨hhere.indexed, List.forall_mem_singleton.2 (hs.named.pending e hmem), hhere.pending_eq, rfl⟩

/-! ## Drains -/

/-- **A drain is not disturbed by the calls of others.** On any mempool that can come about, let the
transactions of a snapshot of the pending pool be promoted in order, with any calls to insert and to
remove in between. Then each of these promotions succeeds and moves the entry of the snapshot that it
is meant for: at its turn this entry is the first of the pending ones, followed by the rest of the
snapshot and by what was inserted since. In the end exactly what was inserted since is pending, in
order, and the entries of the snapshot are behind what was ready, in order, less what was removed. -/
theorem drain_amid_calls {σ : Type} (s : Site σ) (hs : s.mempool.Reachable) (calls : List PoolCall)
    (hcalls : calls.filterMap PoolCall.promotion?
      = (Cursor.ofPool s.mempool.pending).entries.map Entry.tx) :
    let snapshot := (Cursor.ofPool s.mempool.pending).entries
    (∀ before tx rest, calls = before ++ .promote tx :: rest →
      let k := (before.filterMap PoolCall.promotion?).length
      let here := PoolCall.after before s
      let since := PoolCall.arrivals before s
      ∃ e, snapshot[k]? = some e ∧ e.tx = tx ∧
        here.mempool.pending.toList = e :: (snapshot.drop (k + 1) ++ since) ∧
        (Action.promoteTx tx here).1 = .ok e.hash ∧
        (Action.promoteTx tx here).2.mempool.pending.toList = snapshot.drop (k + 1) ++ since ∧
        (Action.promoteTx tx here).2.mempool.ready.toList
          = here.mempool.ready.toList ++ [e.promoted]) ∧
    let done := PoolCall.after calls s
    done.mempool.pending.toList = PoolCall.arrivals calls s ∧
    done.mempool.ready.toList
      = without (s.mempool.ready.toList ++ snapshot.map Entry.promoted)
          (PoolCall.removals calls s) ∧
    ((∀ tx, .remove tx ∉ calls) →
      done.mempool.ready.toList = s.mempool.ready.toList ++ snapshot.map Entry.promoted) := by
  intro snapshot
  have hregular := hs.regular
  refine ⟨?_, ?_⟩
  · intro before tx rest hsplit k here since
    rw [hsplit, List.filterMap_append] at hcalls
    -- The snapshot divides where the calls do.
    obtain ⟨turn, behind, hdivide, hbefore, hbehind⟩ := List.map_eq_append_iff.1 hcalls.symm
    obtain ⟨e, later, rfl, rfl, -⟩ := List.map_eq_cons_iff.1 hbehind
    have hk : k = turn.length := by
      rw [← List.length_map Entry.tx, hbefore]
    have hsnapshot : snapshot = turn ++ e :: later := hdivide
    have hnext : Draining here.mempool [e] (later ++ since) _ :=
      hregular.draining_next hdivide hbefore.symm
    obtain ⟨hanswer, hlists, -⟩ := hnext.promote
    have hdrop : snapshot.drop (k + 1) = later := by
      rw [hsnapshot, hk]
      simp
    refine ⟨e, ?_, rfl, ?_, ?_, ?_, ?_⟩
    · rw [hsnapshot, hk]
      simp
    · rw [hdrop]
      exact hnext.pending_eq
    · rw [hanswer]
    · rw [hdrop]
      exact congrArg PlainPools.pending hlists
    · exact congrArg PlainPools.ready hlists
  · intro done
    have hdone := (hregular.draining (List.append_nil _).symm).run hcalls
    have hready : done.mempool.ready.toList
        = without (s.mempool.ready.toList ++ snapshot.map Entry.promoted)
            (PoolCall.removals calls s) :=
      (List.append_nil _).symm.trans hdone.ready_eq
    refine ⟨hdone.pending_eq, hready, fun hnone => ?_⟩
    rw [hready, PoolCall.removals_eq_nil hnone]
    rfl

theorem pendingTxs_two_copies :
    (PoolCall.after [.insert signedBid, .insert signedBid] freshSite).mempool.pendingTxs
      = [signedBid, signedBid] := by
  decide +kernel

/-- Two copies are drained while a third comes in and the first one is removed. -/
theorem drain_of_two_copies :
    let s := PoolCall.after [.insert signedBid, .insert signedBid] freshSite
    let before : List PoolCall := [.promote signedBid, .insert signedBid, .remove signedBid]
    let calls := before ++ [.promote signedBid]
    s.mempool.Reachable ∧
      calls.filterMap PoolCall.promotion? = (Cursor.ofPool s.mempool.pending).entries.map Entry.tx ∧
      (∃ e, (Cursor.ofPool s.mempool.pending).entries[1]? = some e ∧
        (Action.promoteTx signedBid (PoolCall.after before s)).1 = .ok e.hash ∧
        (PoolCall.after before s).mempool.pending.toList = e :: PoolCall.arrivals before s) ∧
      (PoolCall.after calls s).mempool.pending.toList = PoolCall.arrivals calls s := by
  intro s before calls
  have hfresh : freshSite.mempool.Reachable := .empty
  have hs : s.mempool.Reachable := PoolCall.reachable_after _ hfresh
  have hpendingTxs : s.mempool.pendingTxs = [signedBid, signedBid] := pendingTxs_two_copies
  clear_value s
  have hcalls : calls.filterMap PoolCall.promotion?
      = (Cursor.ofPool s.mempool.pending).entries.map Entry.tx := hpendingTxs.symm
  obtain ⟨heach, hpending, -⟩ := drain_amid_calls s hs calls hcalls
  obtain ⟨e, hentry, -, hhere, hanswer, -⟩ := heach before signedBid [] rfl
  have htwo : (Cursor.ofPool s.mempool.pending).entries.length = 2 := by
    rw [← List.length_map Entry.tx, ← hcalls]
    rfl
  have hdrop : (Cursor.ofPool s.mempool.pending).entries.drop 2 = [] :=
    List.drop_eq_nil_of_le (Nat.le_of_eq htwo)
  have hfirst : (PoolCall.after before s).mempool.pending.toList
      = e :: ((Cursor.ofPool s.mempool.pending).entries.drop 2 ++ PoolCall.arrivals before s) := hhere
  rw [hdrop, List.nil_append] at hfirst
  exact ⟨hs, hcalls, ⟨e, hentry, hanswer, hfirst⟩, hpending⟩

end BidQuorum
