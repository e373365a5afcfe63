import BidQuorum.Proofs.Consultation
import BidQuorum.Proofs.Formats
import BidQuorum.Proofs.Reachable
import BidQuorum.Proofs.Selection

set_option autoImplicit false

/-! # Witnessed once, before it is proposed

Whatever validators do with a mempool that they share, a transaction that was inserted appears in
exactly one vote extension, in its turn, and is not proposed before it has. What ties the payloads
that were made to the contents of the mempool is `Chronicle.Consistent`: of the inserted transactions
the payloads witness those up to some place, the pending ones are those behind it, and the ready ones
are those before it that nobody has removed.

The steps that are looked at are whole calls. A module that called the mempool in the middle of one
would be taking steps of its own there, so modules are asked to leave the mempool alone. -/

namespace BidQuorum

/-! ## Taking transactions out by name -/

/-- Whether two transactions go by the same name: the same first signer and the same hash. -/
def Transaction.sameName (a b : Transaction) : Bool :=
  match Mempool.identify a, Mempool.identify b with
  | .ok x, .ok y => x == y
  | _, _ => false

/-- What remains of transactions when, for each of the `taken` ones in turn, the first of its name is
taken out. -/
def remaining (txs taken : List Transaction) : List Transaction :=
  taken.foldl (fun left tx => left.eraseP tx.sameName) txs

theorem remaining_sublist (txs taken : List Transaction) : (remaining txs taken).Sublist txs := by
  induction taken generalizing txs with
  | nil => exact .refl _
  | cons tx taken ih => exact (ih _).trans List.eraseP_sublist

/-- Each taken transaction takes out at most one. -/
theorem length_le_remaining (txs taken : List Transaction) :
    txs.length ≤ (remaining txs taken).length + taken.length := by
  induction taken generalizing txs with
  | nil => exact Nat.le_refl _
  | cons tx taken ih =>
      have hrest := ih (txs.eraseP tx.sameName)
      have hone : txs.length - 1 ≤ (txs.eraseP tx.sameName).length := List.le_length_eraseP
      show txs.length ≤ (remaining (txs.eraseP tx.sameName) taken).length + (taken.length + 1)
      omega

/-- If each taken transaction has taken one out, none of them looks any further. -/
theorem remaining_append {txs taken : List Transaction}
    (h : (remaining txs taken).length + taken.length = txs.length) (later : List Transaction) :
    remaining (txs ++ later) taken = remaining txs taken ++ later := by
  induction taken generalizing txs with
  | nil => rfl
  | cons tx taken ih =>
      have hcons : ∀ l, remaining l (tx :: taken) = remaining (l.eraseP tx.sameName) taken :=
        fun _ => rfl
      rw [hcons, List.length_cons] at h
      have hle := length_le_remaining (txs.eraseP tx.sameName) taken
      by_cases hfound : ∃ a ∈ txs, tx.sameName a
      · obtain ⟨a, ha, hname⟩ := hfound
        have hlength := List.length_eraseP_of_mem ha hname
        have hpos := List.length_pos_of_mem ha
        rw [hcons, hcons, List.eraseP_append_left hname later ha]
        exact ih (by omega)
      · -- A taken transaction that found nothing would be one too many.
        have hsame : txs.eraseP tx.sameName = txs :=
          List.eraseP_of_forall_not fun a ha hname => hfound ⟨a, ha, hname⟩
        rw [hsame] at h hle
        omega

/-! ## Calls on named entries -/

theorem Entry.Named.isFor_eq {e : Entry} (he : e.Named) {tx : Transaction} {signer : Address}
    {hash : TxHash} (htx : Mempool.identify tx = .ok (signer, hash)) :
    e.isFor signer hash = tx.sameName e.tx := by
  rw [Named] at he
  simp only [isFor, Transaction.sameName, he, htx]
  grind

theorem map_tx_eraseP {es : List Entry} (hes : ∀ e ∈ es, e.Named) {tx : Transaction}
    {signer : Address} {hash : TxHash} (htx : Mempool.identify tx = .ok (signer, hash)) :
    (es.eraseP (Entry.isFor signer hash)).map Entry.tx
      = (es.map Entry.tx).eraseP tx.sameName := by
  induction es with
  | nil => rfl
  | cons e es ih =>
      have hname := (hes e List.mem_cons_self).isFor_eq htx
      have hrest := ih fun x hx => hes x (List.mem_cons_of_mem _ hx)
      by_cases hfor : tx.sameName e.tx
      · rw [List.eraseP_cons_of_pos (hname.trans hfor), List.map_cons,
          List.eraseP_cons_of_pos hfor]
      · rw [List.eraseP_cons_of_neg (by rw [hname]; exact hfor), List.map_cons, hrest,
          List.map_cons, List.eraseP_cons_of_neg hfor]

/-! ## What payloads witness -/

/-- The payloads, in order, say the bids of the transactions, in order: each payload those of a
stretch of them. -/
inductive Witnesses : List Bytes → List Transaction → Prop
  | none : Witnesses [] []
  | more {payloads : List Bytes} {txs : List Transaction} (before : Witnesses payloads txs)
      {payload : Bytes} {extension : VoteExtension} {later : List Transaction}
      (read : VoteExtension.ofBytes payload = .ok extension)
      (bids : extension.bids = later.flatMap Transaction.witness) :
      Witnesses (payloads ++ [payload]) (txs ++ later)

namespace Witnesses

variable {payloads : List Bytes} {txs : List Transaction}

/-- All payloads can be read, and together they hold exactly the bids of the transactions. -/
theorem exists_extensions (h : Witnesses payloads txs) :
    ∃ extensions : List VoteExtension,
      payloads.map VoteExtension.ofBytes = extensions.map .ok ∧
      extensions.flatMap VoteExtension.bids = txs.flatMap Transaction.witness := by
  induction h with
  | none => exact ⟨[], rfl, rfl⟩
  | @more payloads txs before payload extension later read bids ih =>
      obtain ⟨extensions, hread, hbids⟩ := ih
      refine ⟨extensions ++ [extension], ?_, ?_⟩
      · rw [List.map_append, List.map_append, hread, List.map_singleton, List.map_singleton, read]
      · rw [List.flatMap_append, List.flatMap_append, hbids, List.flatMap_singleton, bids]

/-- The bids of a witnessed transaction stand side by side in one payload. -/
theorem exists_payload (h : Witnesses payloads txs) {tx : Transaction} (htx : tx ∈ txs) :
    ∃ payload ∈ payloads, ∃ extension, VoteExtension.ofBytes payload = .ok extension ∧
      tx.witness <:+: extension.bids := by
  induction h with
  | none => cases htx
  | @more payloads txs before payload extension later read bids ih =>
      rcases List.mem_append.1 htx with hold | hnew
      · obtain ⟨p, hp, hwitness⟩ := ih hold
        exact ⟨p, List.mem_append_left _ hp, hwitness⟩
      · refine ⟨payload, List.mem_append_right _ List.mem_cons_self, extension, read, ?_⟩
        obtain ⟨front, back, rfl⟩ := List.append_of_mem hnew
        rw [bids, List.flatMap_append, List.flatMap_cons]
        exact ⟨front.flatMap Transaction.witness, back.flatMap Transaction.witness,
          List.append_assoc _ _ _⟩

end Witnesses

/-! ## Steps -/

/-- A site, and what has been done there so far. -/
structure Chronicle (σ : Type) where
  site : Site σ
  /-- The transactions whose insertion succeeded, in order. -/
  inserted : List Transaction := []
  /-- The transactions whose removal succeeded, in order. -/
  removed : List Transaction := []
  /-- The payloads of the vote extensions made, in order. -/
  payloads : List Bytes := []

/-- Something that is done at a site: a call of its owner, or the work of a validator there. -/
inductive Step (σ : Type) where
  | insert (tx : Transaction)
  | remove (tx : Transaction)
  | extend (v : Validator σ) (height : Height)
  | verify (v : Validator σ) (payload : Bytes)
  | prepare (v : Validator σ) (height : Height) (votes : List ExtendedVote)
  | process (v : Validator σ) (height : Height) (txs : List Bytes)

namespace Step

variable {σ : Type}

/-- The step, done. -/
def run (c : Chronicle σ) : Step σ → Chronicle σ
  | insert tx =>
      match Action.insertTx tx c.site with
      | (.ok _, site) => { c with site, inserted := c.inserted ++ [tx] }
      | (.error _, site) => { c with site }
  | remove tx =>
      match Action.removeTx tx c.site with
      | (.ok _, site) => { c with site, removed := c.removed ++ [tx] }
      | (.error _, site) => { c with site }
  | extend v height =>
      match v.extendVote height c.site with
      | (.ok payload, site) => { c with site, payloads := c.payloads ++ [payload] }
      | (.error _, site) => { c with site }
  | verify v payload => { c with site := (v.verify payload c.site).2 }
  | prepare v height votes => { c with site := (v.prepare height votes c.site).2 }
  | process v height txs => { c with site := (v.process height txs c.site).2 }

/-- Extending a vote inserts nothing. -/
theorem inserted_extend (c : Chronicle σ) (v : Validator σ) (height : Height) :
    (run c (.extend v height)).inserted = c.inserted := by
  rw [run]
  split <;> rfl

/-- The step leaves calls of the mempool to other steps, and what it writes is not too long. -/
def Admissible (s : Site σ) : Step σ → Prop
  | insert _ | remove _ | process .. => True
  | extend v height => v.ModulesLeaveMempool ∧ (v.attached height s).Fits
  | verify v _ => v.ModulesLeaveMempool
  | prepare v .. => v.WithoutBuilder

/-- Steps, done one after another. -/
def runAll (c : Chronicle σ) (steps : List (Step σ)) : Chronicle σ := steps.foldl run c

/-- Each of the steps is admissible where it is done. -/
def AllAdmissible : Chronicle σ → List (Step σ) → Prop
  | _, [] => True
  | c, step :: rest => step.Admissible c.site ∧ AllAdmissible (step.run c) rest

end Step

/-! ## What every step keeps -/

namespace Chronicle

variable {σ : Type} {c : Chronicle σ} {witnessed : List Transaction}

/-- The payloads witness the given transactions. Behind these come the pending ones, and those of
them that have not been removed are the ready ones. -/
structure Consistent (c : Chronicle σ) (witnessed : List Transaction) : Prop where
  indexed : c.site.mempool.Indexed
  pending_named : ∀ e ∈ c.site.mempool.pending.toList, e.Named
  ready_named : ∀ e ∈ c.site.mempool.ready.toList, e.Named
  inserted_eq : c.inserted = witnessed ++ c.site.mempool.pendingTxs
  witnesses : Witnesses c.payloads witnessed
  readyTxs_eq : c.site.mempool.readyTxs = remaining witnessed c.removed
  removed_found : c.site.mempool.readyTxs.length + c.removed.length = witnessed.length

theorem consistent_start {s : Site σ} (hs : s.mempool = .empty) :
    Consistent ⟨s, [], [], []⟩ [] where
  indexed := by rw [hs]; exact Mempool.indexed_empty
  pending_named := by
    intro e he
    rw [hs] at he
    cases he
  ready_named := by
    intro e he
    rw [hs] at he
    cases he
  inserted_eq := by rw [hs]; rfl
  witnesses := .none
  readyTxs_eq := by rw [hs]; rfl
  removed_found := by rw [hs]; rfl

namespace Consistent

/-- Work that leaves the mempool alone changes nothing of this. -/
theorem work (hc : c.Consistent witnessed) {s : Site σ}
    (hs : s.mempool = c.site.mempool) : Consistent { c with site := s } witnessed where
  indexed := by rw [hs]; exact hc.indexed
  pending_named := by rw [hs]; exact hc.pending_named
  ready_named := by rw [hs]; exact hc.ready_named
  inserted_eq := by rw [hs]; exact hc.inserted_eq
  witnesses := hc.witnesses
  readyTxs_eq := by rw [hs]; exact hc.readyTxs_eq
  removed_found := by rw [hs]; exact hc.removed_found

theorem insert (hc : c.Consistent witnessed) (tx : Transaction) :
    (Step.run c (.insert tx)).Consistent witnessed := by
  rcases PoolCall.run_cases (.insert tx) hc.indexed with
    ⟨e, -, hrun⟩ | ⟨_, s, -, hplain, hrun, hindexed, -⟩
  · have hinsert : Action.insertTx tx c.site = (.error e, c.site) := hrun
    rw [Step.run, hinsert]
    exact hc
  · have hinsert : Action.insertTx tx c.site = (.ok tx.hash, s) := hrun
    have hnamed := PlainPools.AllNamed.apply ⟨hc.pending_named, hc.ready_named⟩ hplain
    obtain ⟨e, rfl, -, hlists⟩ := PlainPools.insert_eq_ok hplain
    have hpending : s.mempool.pending.toList = c.site.mempool.pending.toList ++ [e] :=
      congrArg PlainPools.pending hlists
    have hready : s.mempool.ready.toList = c.site.mempool.ready.toList :=
      congrArg PlainPools.ready hlists
    have hreadyTxs : s.mempool.readyTxs = c.site.mempool.readyTxs :=
      congrArg (List.map Entry.tx) hready
    rw [Step.run, hinsert]
    exact {
      indexed := hindexed
      pending_named := hnamed.pending
      ready_named := hnamed.ready
      inserted_eq := by
        simp only [hc.inserted_eq, Mempool.pendingTxs, hpending, List.map_append,
          List.map_singleton, List.append_assoc]
      witnesses := hc.witnesses
      readyTxs_eq := by rw [hreadyTxs]; exact hc.readyTxs_eq
      removed_found := by rw [hreadyTxs]; exact hc.removed_found }

theorem remove (hc : c.Consistent witnessed) (tx : Transaction) :
    (Step.run c (.remove tx)).Consistent witnessed := by
  rcases PoolCall.run_cases (.remove tx) hc.indexed with
    ⟨e, -, hrun⟩ | ⟨_, s, -, hplain, hrun, hindexed, -⟩
  · have hremove : Action.removeTx tx c.site = (.error e, c.site) := hrun
    rw [Step.run, hremove]
    exact hc
  · have hremove : Action.removeTx tx c.site = (.ok tx.hash, s) := hrun
    have hnamed := PlainPools.AllNamed.apply ⟨hc.pending_named, hc.ready_named⟩ hplain
    obtain ⟨signer, hash, hname, ⟨e, he, hfor⟩, hlists⟩ := PlainPools.remove_eq_ok hplain
    have hpending : s.mempool.pending.toList = c.site.mempool.pending.toList :=
      congrArg PlainPools.pending hlists
    have hready : s.mempool.ready.toList
        = c.site.mempool.ready.toList.eraseP (Entry.isFor signer hash) :=
      congrArg PlainPools.ready hlists
    have hreadyTxs : s.mempool.readyTxs = c.site.mempool.readyTxs.eraseP tx.sameName := by
      rw [Mempool.readyTxs, hready, map_tx_eraseP hc.ready_named hname]
      rfl
    -- The entry was found by its name, so its transaction is one of those that are ready.
    have hfound : tx.sameName e.tx := (hc.ready_named e he).isFor_eq hname ▸ hfor
    have hmem : e.tx ∈ c.site.mempool.readyTxs := List.mem_map_of_mem he
    have hlength := List.length_eraseP_of_mem hmem hfound
    have hpos := List.length_pos_of_mem hmem
    have hcount := hc.removed_found
    rw [Step.run, hremove]
    exact {
      indexed := hindexed
      pending_named := hnamed.pending
      ready_named := hnamed.ready
      inserted_eq := by
        simp only [Mempool.pendingTxs, hpending]
        exact hc.inserted_eq
      witnesses := hc.witnesses
      readyTxs_eq := by
        simp only [hreadyTxs, hc.readyTxs_eq, remaining, List.foldl_append, List.foldl_cons,
          List.foldl_nil]
      removed_found := by
        simp only [hreadyTxs, List.length_append, List.length_singleton]
        omega }

/-- Extending a vote witnesses all that was pending. -/
theorem extend (hc : c.Consistent witnessed) {v : Validator σ} {height : Height}
    (hv : v.ModulesLeaveMempool) (hfits : (v.attached height c.site).Fits) :
    (Step.run c (.extend v height)).Consistent c.inserted := by
  obtain ⟨hbids, hplain, hindexed⟩ :=
    Validator.extendVote_spec hv height c.site hc.indexed hc.pending_named
  have hreadyTxs := Validator.readyTxs_extendVote hv height c.site hc.indexed hc.pending_named
  have hpayload := Validator.extendVote_of_fits hfits
  have hread : VoteExtension.ofBytes (v.attached height c.site).toBytes
      = .ok (v.attached height c.site) := VoteExtension.ofBytes_toBytes hfits
  rw [Step.run]
  generalize v.extendVote height c.site = done at hpayload hplain hindexed hreadyTxs ⊢
  obtain ⟨_, after⟩ := done
  cases hpayload
  have hpending : after.mempool.pending.toList = [] := congrArg PlainPools.pending hplain
  have hready : after.mempool.ready.toList
      = c.site.mempool.ready.toList ++ c.site.mempool.pending.toList.map Entry.promoted :=
    congrArg PlainPools.ready hplain
  have hcount := hc.removed_found
  rw [hc.inserted_eq]
  exact {
    indexed := hindexed
    pending_named := by
      intro e he
      rw [hpending] at he
      cases he
    ready_named := by
      intro x hx
      rw [hready] at hx
      rcases List.mem_append.1 hx with hold | hnew
      · exact hc.ready_named x hold
      · obtain ⟨e, he, rfl⟩ := List.mem_map.1 hnew
        exact hc.pending_named e he
    inserted_eq := by
      simp only [Mempool.pendingTxs, hpending, List.map_nil, List.append_nil]
    witnesses := hc.witnesses.more hread hbids
    -- Earlier removals have all found something, so what is ready now is beyond them.
    readyTxs_eq := by
      rw [hreadyTxs, remaining_append (by rw [← hc.readyTxs_eq]; exact hcount), hc.readyTxs_eq]
    removed_found := by
      simp only [hreadyTxs, List.length_append]
      omega }

/-- A step leaves it consistent; an extension with nothing left to witness. -/
theorem step (hc : c.Consistent witnessed) {step : Step σ} (h : step.Admissible c.site) :
    ∃ witnessed', (step.run c).Consistent witnessed' ∧
      ∀ v height, step = .extend v height → witnessed' = (step.run c).inserted := by
  cases step with
  | insert tx => exact ⟨witnessed, hc.insert tx, nofun⟩
  | remove tx => exact ⟨witnessed, hc.remove tx, nofun⟩
  | extend v height =>
      exact ⟨c.inserted, hc.extend h.1 h.2, fun _ _ _ => (Step.inserted_extend c v height).symm⟩
  | verify v payload =>
      have hleaves := Validator.leavesMempool_verify h payload c.site
      exact ⟨witnessed, hc.work hleaves, nofun⟩
  | prepare v height votes =>
      have hleaves := Validator.leavesMempool_prepare h height votes c.site
      exact ⟨witnessed, hc.work hleaves, nofun⟩
  | process v height txs =>
      have hleaves := Validator.leavesMempool_process (v := v) height txs c.site
      exact ⟨witnessed, hc.work hleaves, nofun⟩

theorem runAll (hc : c.Consistent witnessed) {steps : List (Step σ)}
    (h : Step.AllAdmissible c steps) :
    ∃ witnessed', (Step.runAll c steps).Consistent witnessed' ∧
      ∀ v height, steps.getLast? = some (.extend v height) →
        witnessed' = (Step.runAll c steps).inserted := by
  induction steps generalizing c witnessed with
  | nil => exact ⟨witnessed, hc, nofun⟩
  | cons step rest ih =>
      obtain ⟨next, hnext, hextend⟩ := hc.step h.1
      cases rest with
      | nil => exact ⟨next, hnext, fun v height hlast => hextend v height (Option.some.inj hlast)⟩
      | cons step' rest =>
          obtain ⟨last, hlast, hlastExtend⟩ := ih hnext h.2
          refine ⟨last, hlast, ?_⟩
          intro v height he
          rw [List.getLast?_cons_cons] at he
          exact hlastExtend v height he

/-- What is proposed without a builder are witnessed transactions. -/
theorem proposed (hc : c.Consistent witnessed) {v : Validator σ} (hv : v.WithoutBuilder)
    (height : Height) (votes : List ExtendedVote) {bytes : Bytes}
    (hbytes : bytes ∈ v.ordinaryTxs height votes (v.prepare height votes c.site).1.txs) :
    ∃ tx ∈ witnessed, v.codec.encode tx = .ok bytes ∧
      ∃ payload ∈ c.payloads, ∃ extension, VoteExtension.ofBytes payload = .ok extension ∧
        tx.witness <:+: extension.bids := by
  obtain ⟨-, chosen, hsub, hencodes⟩ := v.prepare_spec height votes c.site
  have hencoded : (.ok bytes : Except CodecError Bytes) ∈ chosen.map v.codec.encode := by
    rw [hencodes]
    exact List.mem_map_of_mem hbytes
  obtain ⟨tx, htx, hencode⟩ := List.mem_map.1 hencoded
  have hready : tx ∈ c.site.mempool.readyTxs := by
    have hproposed := hsub.subset htx
    rwa [Validator.proposedTxs_of_withoutBuilder hv, (v.afterVotes_spec height votes c.site).1]
      at hproposed
  rw [hc.readyTxs_eq] at hready
  have hwitnessed : tx ∈ witnessed := (remaining_sublist _ _).subset hready
  exact ⟨tx, hwitnessed, hencode, hc.witnesses.exists_payload hwitnessed⟩

end Consistent

end Chronicle

/-! ## Runs from an empty mempool -/

/-- **Every transaction is witnessed exactly once, before it is proposed.** Whatever is done with a
mempool that was empty, there is a number `k` of inserted transactions such that the payloads made so
far hold the bids of the first `k` in order and nothing else, the rest is pending in order, and what
is ready are those of the first `k` that are not removed yet. An extension brings `k` up to all that
were inserted. A validator without a builder proposes only transactions whose bids stand in one of
the payloads. -/
theorem witnessed_once_before_proposed {σ : Type} (site : Site σ) (hsite : site.mempool = .empty)
    (steps : List (Step σ)) (hsteps : Step.AllAdmissible { site } steps) :
    let c := Step.runAll { site } steps
    ∃ k ≤ c.inserted.length,
      (∃ extensions : List VoteExtension,
        c.payloads.map VoteExtension.ofBytes = extensions.map .ok ∧
        extensions.flatMap VoteExtension.bids = (c.inserted.take k).flatMap Transaction.witness) ∧
      c.site.mempool.pendingTxs = c.inserted.drop k ∧
      c.site.mempool.readyTxs.Sublist (c.inserted.take k) ∧
      c.site.mempool.readyTxs = remaining (c.inserted.take k) c.removed ∧
      c.site.mempool.readyTxs.length + c.removed.length = k ∧
      (∀ v height, steps.getLast? = some (.extend v height) → k = c.inserted.length) ∧
      ∀ (v : Validator σ) (height : Height) (votes : List ExtendedVote), v.WithoutBuilder →
        ∀ bytes ∈ v.ordinaryTxs height votes (v.prepare height votes c.site).1.txs,
          ∃ tx ∈ c.inserted.take k, v.codec.encode tx = .ok bytes ∧
            ∃ payload ∈ c.payloads, ∃ extension, VoteExtension.ofBytes payload = .ok extension ∧
              tx.witness <:+: extension.bids := by
  intro c
  obtain ⟨witnessed, hc, hextend⟩ := (Chronicle.consistent_start hsite).runAll hsteps
  have htake : c.inserted.take witnessed.length = witnessed := by
    rw [hc.inserted_eq, List.take_left]
  have hdrop : c.inserted.drop witnessed.length = c.site.mempool.pendingTxs := by
    rw [hc.inserted_eq, List.drop_left]
  have hle : witnessed.length ≤ c.inserted.length := by
    rw [hc.inserted_eq, List.length_append]
    exact Nat.le_add_right _ _
  refine ⟨witnessed.length, hle, ?_, hdrop.symm, ?_, ?_, hc.removed_found, ?_, ?_⟩
  · rw [htake]
    exact hc.witnesses.exists_extensions
  · rw [htake, hc.readyTxs_eq]
    exact remaining_sublist _ _
  · rw [htake]
    exact hc.readyTxs_eq
  · intro v height hlast
    rw [hextend v height hlast]
  · intro v height votes hv bytes hbytes
    rw [htake]
    exact hc.proposed hv height votes hbytes

theorem length_signingSeed : (List.replicate 32 (7 : UInt8)).length = 32 := rfl

/-- A transaction with one bid, signed by one account. -/
def signedBid : Transaction :=
  .sign [.bid ⟨"alpha", "addr", "own", [⟨"coin", 5⟩]⟩] [⟨List.replicate 32 7, length_signingSeed⟩]

/-- A site where nothing has been done. -/
def freshSite : Site Unit := { mempool := .empty, outside := () }

/-- A site where nothing has been done but to insert one transaction. -/
def insertedSite (tx : Transaction) : Site Unit :=
  (Step.run { site := freshSite } (.insert tx)).site

theorem readyTxs_insertedSite (tx : Transaction) : (insertedSite tx).mempool.readyTxs = [] := by
  have hc := (Chronicle.consistent_start (s := freshSite) rfl).insert tx
  exact List.eq_nil_of_length_eq_zero (Nat.eq_zero_of_add_eq_zero hc.removed_found).1

theorem reachable_insertedSite (tx : Transaction) : (insertedSite tx).mempool.Reachable := by
  have hrun : (Action.insertTx tx freshSite).2.mempool.Reachable :=
    Mempool.Reachable.run (s := freshSite) .empty (.insert tx)
  rw [insertedSite, Step.run]
  split <;> (next h => rw [h] at hrun; exact hrun)

theorem pendingTxs_signedBid : (insertedSite signedBid).mempool.pendingTxs = [signedBid] := by
  decide +kernel

theorem attached_signedBid :
    ({} : Validator Unit).attached ⟨1⟩ (Step.run { site := freshSite } (.insert signedBid)).site
      = ⟨⟨1⟩, signedBid.witness, .empty⟩ := by
  rw [← insertedSite, Validator.attached_of_subscribers_eq_empty rfl _
    (reachable_insertedSite signedBid).fits_bids_pendingTxs, pendingTxs_signedBid,
    List.flatMap_singleton]

/-- A signed bid that is inserted is witnessed by the next extension. -/
theorem witnessed_once_of_signedBid :
    let c := Step.runAll { site := freshSite } [.insert signedBid, .extend {} ⟨1⟩]
    ∃ extensions : List VoteExtension,
      c.payloads.map VoteExtension.ofBytes = extensions.map .ok ∧
      extensions.flatMap VoteExtension.bids = c.inserted.flatMap Transaction.witness := by
  intro c
  have hfits : (({} : Validator Unit).attached ⟨1⟩
      (Step.run { site := freshSite } (.insert signedBid)).site).Fits := by
    rw [attached_signedBid]
    exact ⟨by decide +kernel, by decide +kernel, by decide, nofun⟩
  have hmodules : ({} : Validator Unit).ModulesLeaveMempool := nofun
  obtain ⟨k, -, ⟨extensions, hread, hbids⟩, -, -, -, -, hextend, -⟩ :=
    witnessed_once_before_proposed freshSite rfl [.insert signedBid, .extend {} ⟨1⟩]
      ⟨trivial, ⟨hmodules, hfits⟩, trivial⟩
  have hk : k = c.inserted.length := hextend _ _ rfl
  rw [hk, List.take_length] at hbids
  exact ⟨extensions, hread, hbids⟩

end BidQuorum
