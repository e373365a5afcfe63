import BidQuorum.Mempool.Cursor
import BidQuorum.Proofs.Journal

set_option autoImplicit false

/-! # Books

A pool keeps books twice, by number and by hash, and no operation may change the one without the other.
`Pool.Booked` says what holds of the two at any time; it comes of `Pool.Indexed`, which gives the queue of
a hash as a list. That entries are kept under the names of their transactions, with the priority of their
pool, and that every number given out belongs to an event, is kept by each call and so by all work on a
mempool (`Mempool.Kept`). -/

namespace BidQuorum

/-! ## The two books of a pool -/

namespace Pool

/-- The books of a pool whose entries all have one priority. -/
structure Booked (p : Pool) (priority : Nat) : Prop where
  /-- Numbers still to be given out are above those that are in use. -/
  below_next : ∀ (seq : Nat) (e : Entry), p.entries[seq]? = some e → seq < p.nextSeq
  /-- A hash has a queue as long as there is an entry of it. -/
  queue_iff : ∀ hash,
    (∃ queue, p.index[hash]? = some queue) ↔
      ∃ (seq : Nat) (e : Entry), p.entries[seq]? = some e ∧ e.hash = hash
  /-- A queue holds the numbers of the entries of its hash, in ascending order. -/
  queue : ∀ hash queue, p.index[hash]? = some queue →
    queue ≠ [] ∧ queue.Pairwise (· < ·) ∧
    ∀ seq, seq ∈ queue ↔ ∃ e : Entry, p.entries[seq]? = some e ∧ e.hash = hash
  /-- An entry is in the queue of its hash once, and in no other. -/
  once : ∀ (seq : Nat) (e : Entry), p.entries[seq]? = some e →
    (∃ queue, p.index[e.hash]? = some queue ∧ queue.count seq = 1) ∧
    ∀ hash queue, p.index[hash]? = some queue → hash ≠ e.hash → seq ∉ queue
  /-- An entry is kept under the first verified signer and the hash of its transaction. -/
  entry : ∀ (seq : Nat) (e : Entry), p.entries[seq]? = some e →
    (∃ signer, e.tx.verifiedSigners.head? = some signer ∧ e.signer = signer.address) ∧
    e.tx.computeHash = .ok e.hash ∧ e.priority = priority
  /-- As many entries are counted as are shown. -/
  size_eq : p.size = (Cursor.ofPool p).entries.length

variable {p : Pool}

theorem mem_numbers {hash : TxHash} {seq : Nat} :
    seq ∈ p.numbers hash ↔ ∃ e : Entry, p.entries[seq]? = some e ∧ e.hash = hash := by
  simp [numbers, Std.TreeMap.mem_toList_iff_getElem?_eq_some]

theorem ascending_numbers (p : Pool) (hash : TxHash) : (p.numbers hash).Pairwise (· < ·) :=
  List.pairwise_map.2 ((ascending_toList p.entries).filter _)

theorem mem_toList {e : Entry} : e ∈ p.toList ↔ ∃ seq : Nat, p.entries[seq]? = some e := by
  simp [toList, Std.TreeMap.mem_toList_iff_getElem?_eq_some]

theorem Indexed.index_eq_some_iff (hp : p.Indexed) {hash : TxHash} {queue : List Nat} :
    p.index[hash]? = some queue ↔ queue = p.numbers hash ∧ queue ≠ [] := by
  rw [hp.index_eq]
  split
  · next hnil =>
      rw [hnil]
      exact ⟨nofun, fun h => absurd h.1 h.2⟩
  · next hne =>
      rw [Option.some.injEq]
      constructor
      · rintro rfl
        exact ⟨rfl, hne⟩
      · exact fun h => h.1.symm

/-- An indexed pool keeps both books right. -/
theorem Indexed.booked (hp : p.Indexed) {priority : Nat}
    (hentries : ∀ e ∈ p.toList, e.Named ∧ e.priority = priority) : p.Booked priority where
  below_next seq e he := hp.fresh (seq, e) (Std.TreeMap.mem_toList_iff_getElem?_eq_some.2 he)
  queue_iff hash := by
    constructor
    · rintro ⟨queue, hqueue⟩
      obtain ⟨rfl, hne⟩ := hp.index_eq_some_iff.1 hqueue
      obtain ⟨seq, hseq⟩ := List.exists_mem_of_ne_nil _ hne
      exact ⟨seq, mem_numbers.1 hseq⟩
    · rintro ⟨seq, hentry⟩
      exact ⟨_, hp.index_eq_some_iff.2 ⟨rfl, List.ne_nil_of_mem (mem_numbers.2 hentry)⟩⟩
  queue hash queue hqueue := by
    obtain ⟨rfl, hne⟩ := hp.index_eq_some_iff.1 hqueue
    exact ⟨hne, ascending_numbers p hash, fun seq => mem_numbers⟩
  once seq e he := by
    have hmem : seq ∈ p.numbers e.hash := mem_numbers.2 ⟨e, he, rfl⟩
    have hnodup : (p.numbers e.hash).Nodup := (ascending_numbers p e.hash).imp Nat.ne_of_lt
    refine ⟨⟨_, hp.index_eq_some_iff.2 ⟨rfl, List.ne_nil_of_mem hmem⟩,
      List.count_eq_one_of_mem hnodup hmem⟩, ?_⟩
    intro hash queue hqueue hother hseq
    obtain ⟨rfl, -⟩ := hp.index_eq_some_iff.1 hqueue
    obtain ⟨e', he', hhash⟩ := mem_numbers.1 hseq
    rw [Option.some.inj (he.symm.trans he')] at hother
    exact hother hhash.symm
  entry seq e he := by
    obtain ⟨hnamed, hpriority⟩ := hentries e (mem_toList.2 ⟨seq, he⟩)
    obtain ⟨signer, hsigner, hfits, hname⟩ := Mempool.identify_eq_ok_iff.1 hnamed
    have hhash := Transaction.computeHash_eq_ok_iff.2 ⟨hfits, congrArg Prod.snd hname⟩
    exact ⟨⟨signer, hsigner, congrArg Prod.fst hname⟩, hhash, hpriority⟩
  size_eq := size_eq_length p

/-! ## Numbers given out -/

theorem nextSeq_take? {signer : Address} {hash : TxHash} {e : Entry} {rest : Pool}
    (h : p.take? signer hash = some (e, rest)) : rest.nextSeq = p.nextSeq := by
  unfold take? at h
  split at h
  · cases h
  · split at h
    · cases h
    · split at h
      · cases h
      · cases h
        rfl

end Pool

/-- An entry has been put into the pending pool. -/
def PoolEvent.isInsertion : PoolEvent → Bool
  | inserted .. => true
  | promoted .. | removed .. => false

/-- An entry has been put into the ready pool. -/
def PoolEvent.isPromotion : PoolEvent → Bool
  | promoted .. => true
  | inserted .. | removed .. => false

/-- A call gives out the number of the entry that its event tells of, and no other. -/
theorem PoolCall.nextSeq_change {c : PoolCall} {m : Mempool} {r : Mempool.Change}
    (h : c.change m = .ok r) :
    r.mempool.pending.nextSeq = m.pending.nextSeq + [r.event].countP PoolEvent.isInsertion ∧
    r.mempool.ready.nextSeq = m.ready.nextSeq + [r.event].countP PoolEvent.isPromotion := by
  cases c with
  | insert tx =>
      rw [change, Mempool.insert] at h
      split at h
      · cases h
      · cases h
        exact ⟨rfl, rfl⟩
  | promote tx =>
      rw [change, Mempool.promote] at h
      split at h
      · cases h
      · split at h
        · cases h
        · next htake =>
            cases h
            exact ⟨Pool.nextSeq_take? htake, rfl⟩
  | remove tx =>
      rw [change, Mempool.remove] at h
      split at h
      · cases h
      · split at h
        · cases h
        · next htake =>
            cases h
            exact ⟨rfl, Pool.nextSeq_take? htake⟩

/-! ## What calls keep -/

namespace PlainPools

/-- Every entry has the priority of its pool. -/
structure Ranked (l : PlainPools) : Prop where
  pending : ∀ e ∈ l.pending, e.priority = Mempool.pendingPriority
  ready : ∀ e ∈ l.ready, e.priority = Mempool.readyPriority

theorem Ranked.apply {l l' : PlainPools} (hl : l.Ranked) {c : PoolCall} {signer : Address}
    {hash : TxHash} (hname : Mempool.identify c.tx = .ok (signer, hash)) (h : l.apply c = .ok l') :
    l'.Ranked := by
  cases c with
  | insert tx =>
      cases (insert_of_identify hname).symm.trans h
      refine ⟨fun x hx => ?_, hl.ready⟩
      rcases List.mem_append.1 hx with hold | hnew
      · exact hl.pending x hold
      · rw [List.mem_singleton.1 hnew]
  | promote tx =>
      obtain ⟨signer, hash, e, -, -, -, rfl⟩ := promote_eq_ok h
      refine ⟨fun x hx => hl.pending x (List.mem_of_mem_eraseP hx), fun x hx => ?_⟩
      rcases List.mem_append.1 hx with hold | hnew
      · exact hl.ready x hold
      · rw [List.mem_singleton.1 hnew]
        rfl
  | remove tx =>
      obtain ⟨signer, hash, -, -, rfl⟩ := remove_eq_ok h
      exact ⟨hl.pending, fun x hx => hl.ready x (List.mem_of_mem_eraseP hx)⟩

end PlainPools

/-- What is kept of a mempool that was empty, when these are its events since. -/
structure Mempool.Kept (m : Mempool) (told : List PoolEvent) : Prop where
  regular : m.Regular
  ranked : m.plain.Ranked
  pending_nextSeq : m.pending.nextSeq = told.countP PoolEvent.isInsertion
  ready_nextSeq : m.ready.nextSeq = told.countP PoolEvent.isPromotion

namespace Mempool.Kept

variable {σ α : Type}

theorem start : Mempool.empty.Kept [] := ⟨regular_empty, ⟨nofun, nofun⟩, rfl, rfl⟩

theorem change {m : Mempool} {told : List PoolEvent} (hm : m.Kept told) {c : PoolCall} {r : Change}
    (h : c.change m = .ok r) : r.mempool.Kept (told ++ [r.event]) := by
  obtain ⟨hpending, hready⟩ := PoolCall.nextSeq_change h
  have hranked : r.mempool.plain.Ranked := by
    rcases c.change_cases hm.regular.indexed with
      ⟨e, herror, -⟩ | ⟨signer, m', hname, hok, hplain, -⟩
    · cases h.symm.trans herror
    · cases h.symm.trans hok
      exact hm.ranked.apply hname hplain
  refine ⟨hm.regular.change h, hranked, ?_, ?_⟩
  · rw [hpending, hm.pending_nextSeq, List.countP_append]
  · rw [hready, hm.ready_nextSeq, List.countP_append]

theorem call {s : Site σ} (hs : s.mempool.Kept (poolEvents s.events)) (c : PoolCall) :
    (c.run s).2.mempool.Kept (poolEvents (c.run s).2.events) := by
  rw [PoolCall.run_eq_call, Action.call]
  cases hchange : c.change s.mempool with
  | error e => exact hs
  | ok r =>
      have htold : poolEvents (s.events ++ [.pool r.event]) = poolEvents s.events ++ [r.event] :=
        List.filterMap_append
      exact htold ▸ hs.change hchange

/-- Work on a mempool keeps what its calls keep. -/
theorem run (p : Program σ α) {s : Site σ} (hs : s.mempool.Kept (poolEvents s.events)) :
    (p.run s).2.mempool.Kept (poolEvents (p.run s).2.events) := by
  refine p.keeps (I := fun s => s.mempool.Kept (poolEvents s.events)) (fun c h => h.call c) ?_ hs
  intro s s' others hmempool hevents h
  have hothers : poolEvents (others.map .validator) = [] := by
    rw [poolEvents, List.filterMap_map]
    exact List.filterMap_eq_nil_iff.2 fun _ _ => rfl
  have htold : poolEvents s'.events = poolEvents s.events := by
    rw [hevents, poolEvents, List.filterMap_append]
    exact (congrArg _ hothers).trans (List.append_nil _)
  rwa [hmempool, htold]

end Mempool.Kept

/-! ## Books at any time -/

/-- **The books of both pools are right at any time.** Let any tasks be done at a site whose mempool is
empty and where nothing has been published. Then in both pools the numbers in use are below the next one.
A hash has a queue if and only if there is an entry of it, and the queue holds the numbers of these
entries, ascending; so each entry is in one queue, once. Each entry is kept under the first verified
signer and the hash of its transaction, the pending ones with priority 0 and the ready ones with
priority 1. The counts are the lengths of what is shown. As many numbers have been given out as entries
have been put into the pool. -/
theorem books_of_tasks {σ : Type} (outside : σ) (tasks : List (Task σ))
    (htasks : ∀ t ∈ tasks, t.Orderly) :
    let done := (Task.runAll tasks { mempool := .empty, outside }).2
    let pending := (Cursor.ofPool done.mempool.pending).entries
    let ready := (Cursor.ofPool done.mempool.ready).entries
    done.mempool.pending.Booked 0 ∧ done.mempool.ready.Booked 1 ∧
    done.mempool.size = pending.length + ready.length ∧
    (done.mempool.isEmpty ↔ pending = [] ∧ ready = []) ∧
    done.mempool.pending.nextSeq = (poolEvents done.events).countP PoolEvent.isInsertion ∧
    done.mempool.ready.nextSeq = (poolEvents done.events).countP PoolEvent.isPromotion := by
  intro done pending ready
  obtain ⟨p, hp⟩ := Task.orderly_runAll htasks
  have hkept : done.mempool.Kept (poolEvents done.events) := by
    have hrun := Mempool.Kept.run (s := { mempool := .empty, outside }) p .start
    rwa [hp] at hrun
  obtain ⟨hindexed, hnamed⟩ := hkept.regular
  have hsize : done.mempool.size = pending.length + ready.length :=
    congrArg₂ Nat.add (Pool.size_eq_length _) (Pool.size_eq_length _)
  refine ⟨hindexed.pending.booked fun e he => ⟨hnamed.pending e he, hkept.ranked.pending e he⟩,
    hindexed.ready.booked fun e he => ⟨hnamed.ready e he, hkept.ranked.ready e he⟩,
    hsize, ?_, hkept.pending_nextSeq, hkept.ready_nextSeq⟩
  rw [Mempool.isEmpty, hsize, beq_iff_eq, Nat.add_eq_zero_iff, List.length_eq_zero_iff,
    List.length_eq_zero_iff]

/-- A bid that is inserted and witnessed, and then a proposal that is meddled with. -/
def meddledTasks : List (Task Unit) :=
  let v := meddler signedBid signedBid
  [.call (.insert signedBid), .extend v ⟨2⟩, .prepare v ⟨3⟩ []]

theorem orderly_meddledTasks : ∀ t ∈ meddledTasks, t.Orderly := by
  have hv := orderly_meddler signedBid signedBid
  simp only [meddledTasks, List.forall_mem_cons]
  exact ⟨trivial, hv, hv, nofun⟩

theorem counts_meddledTasks :
    let told := poolEvents (Task.runAll meddledTasks freshSite).2.events
    told.countP PoolEvent.isInsertion = 2 ∧ told.countP PoolEvent.isPromotion = 1 := by
  decide +kernel

/-- The books are right also where a module calls the mempool in the middle of a task: it inserts a
transaction for the second time, and takes out the first one. -/
theorem books_of_meddler :
    let done := (Task.runAll meddledTasks freshSite).2
    (∀ t ∈ meddledTasks, t.Orderly) ∧
      done.mempool.pending.Booked 0 ∧ done.mempool.ready.Booked 1 ∧
      done.mempool.pending.nextSeq = 2 ∧ done.mempool.ready.nextSeq = 1 := by
  have hcounts := counts_meddledTasks
  have htasks := orderly_meddledTasks
  generalize meddledTasks = tasks at hcounts htasks ⊢
  obtain ⟨hpending, hready, -, -, hinserted, hpromoted⟩ := books_of_tasks () tasks htasks
  exact ⟨htasks, hpending, hready, hinserted.trans hcounts.1, hpromoted.trans hcounts.2⟩

end BidQuorum
