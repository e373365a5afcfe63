import BidQuorum.Proofs.Pool
import BidQuorum.Site

set_option autoImplicit false

/-! # The mempool as two lists

Callers of a mempool see the answers to their calls and the entries of both pools. To them it is two
plain lists, each searched from the front, whatever mixture of calls they make: calls that fail,
equal transactions, different transactions of one signer. The simulation is `Mempool.plain`, kept by
every call as long as both pools are indexed; sequence numbers never run out here, so the number of
calls is not bounded either. -/

namespace BidQuorum

/-! ## Calls -/

/-- A call on a mempool. -/
inductive PoolCall where
  | insert (tx : Transaction)
  | promote (tx : Transaction)
  | remove (tx : Transaction)

/-- What callers see of a call: its answer, and the entries of both pools after it. -/
structure CallView where
  answer : Except MempoolError TxHash
  pending : List Entry
  ready : List Entry

namespace PoolCall

def tx : PoolCall → Transaction
  | insert tx | promote tx | remove tx => tx

/-- The call, made at a site. -/
def run {σ : Type} : PoolCall → Action σ (Except MempoolError TxHash)
  | insert tx => Action.insertTx tx
  | promote tx => Action.promoteTx tx
  | remove tx => Action.removeTx tx

/-- What is seen of calls made one after another at a site. -/
def views {σ : Type} : List PoolCall → Site σ → List CallView
  | [], _ => []
  | c :: rest, s =>
      let (answer, s) := c.run s
      ⟨answer, s.mempool.pending.toList, s.mempool.ready.toList⟩ :: views rest s

end PoolCall

/-! ## Names -/

namespace Mempool

theorem identify_eq (tx : Transaction) :
    identify tx = match tx.verifiedSigners.head?, tx.computeHash with
      | none, _ => .error .missingSignature
      | some _, .error reason => .error (.unhashable reason)
      | some signer, .ok hash => .ok (signer.address, hash) := by
  rw [identify]
  cases tx.verifiedSigners with
  | nil => rfl
  | cons signer rest => cases tx.computeHash <;> rfl

/-- A transaction goes by its first verified signer and its hash, if it has them. -/
theorem identify_eq_ok_iff {tx : Transaction} {name : Address × TxHash} :
    identify tx = .ok name ↔
      ∃ signer, tx.verifiedSigners.head? = some signer ∧ tx.Fits ∧ name = (signer.address, tx.hash) := by
  rw [identify_eq]
  cases tx.verifiedSigners.head? with
  | none => simp
  | some signer =>
      by_cases htx : tx.Fits
      · simp [Transaction.computeHash_of_fits htx, htx, eq_comm]
      · simp [Transaction.computeHash_of_not_fits htx, htx]

theorem hash_of_identify {tx : Transaction} {signer : Address} {hash : TxHash}
    (h : identify tx = .ok (signer, hash)) : hash = tx.hash := by
  obtain ⟨_, -, -, hname⟩ := identify_eq_ok_iff.1 h
  exact congrArg Prod.snd hname

end Mempool

/-! ## Two plain lists -/

/-- Pending and ready entries, with nothing beside them. -/
structure PlainPools where
  pending : List Entry := []
  ready : List Entry := []

namespace PlainPools

/-- Append the transaction under its first verified signer and its hash. -/
def insert (l : PlainPools) (tx : Transaction) : Except MempoolError PlainPools :=
  match tx.verifiedSigners.head?, tx.computeHash with
  | none, _ => .error .missingSignature
  | some _, .error reason => .error (.unhashable reason)
  | some signer, .ok hash =>
      .ok { l with pending := l.pending ++ [⟨signer.address, 0, hash, tx⟩] }

/-- Move the first pending entry of the same signer and hash to the end of the ready entries; only
its priority changes. -/
def promote (l : PlainPools) (tx : Transaction) : Except MempoolError PlainPools :=
  match tx.verifiedSigners.head?, tx.computeHash with
  | none, _ => .error .missingSignature
  | some _, .error reason => .error (.unhashable reason)
  | some signer, .ok hash =>
      match l.pending.find? (Entry.isFor signer.address hash) with
      | none => .error (.notFound hash)
      | some e =>
          .ok ⟨l.pending.eraseP (Entry.isFor signer.address hash),
            l.ready ++ [{ e with priority := 1 }]⟩

/-- Delete the first ready entry of the same signer and hash. -/
def remove (l : PlainPools) (tx : Transaction) : Except MempoolError PlainPools :=
  match tx.verifiedSigners.head?, tx.computeHash with
  | none, _ => .error .missingSignature
  | some _, .error reason => .error (.unhashable reason)
  | some signer, .ok hash =>
      match l.ready.find? (Entry.isFor signer.address hash) with
      | none => .error (.notFound hash)
      | some _ => .ok { l with ready := l.ready.eraseP (Entry.isFor signer.address hash) }

section Named

variable (l : PlainPools) (tx : Transaction)

theorem insert_eq :
    l.insert tx = match Mempool.identify tx with
      | .error e => .error e
      | .ok (signer, hash) => .ok { l with pending := l.pending ++ [⟨signer, 0, hash, tx⟩] } := by
  rw [insert, Mempool.identify_eq]
  cases tx.verifiedSigners.head? with
  | none => rfl
  | some signer => cases tx.computeHash <;> rfl

theorem promote_eq :
    l.promote tx = match Mempool.identify tx with
      | .error e => .error e
      | .ok (signer, hash) =>
          match l.pending.find? (Entry.isFor signer hash) with
          | none => .error (.notFound hash)
          | some e =>
              .ok ⟨l.pending.eraseP (Entry.isFor signer hash),
                l.ready ++ [{ e with priority := 1 }]⟩ := by
  rw [promote, Mempool.identify_eq]
  cases tx.verifiedSigners.head? with
  | none => rfl
  | some signer => cases tx.computeHash <;> rfl

theorem remove_eq :
    l.remove tx = match Mempool.identify tx with
      | .error e => .error e
      | .ok (signer, hash) =>
          match l.ready.find? (Entry.isFor signer hash) with
          | none => .error (.notFound hash)
          | some _ => .ok { l with ready := l.ready.eraseP (Entry.isFor signer hash) } := by
  rw [remove, Mempool.identify_eq]
  cases tx.verifiedSigners.head? with
  | none => rfl
  | some signer => cases tx.computeHash <;> rfl

end Named

def apply (l : PlainPools) : PoolCall → Except MempoolError PlainPools
  | .insert tx => l.insert tx
  | .promote tx => l.promote tx
  | .remove tx => l.remove tx

/-- What is seen of calls made one after another. A call that fails leaves the lists as they are. -/
def views : List PoolCall → PlainPools → List CallView
  | [], _ => []
  | c :: rest, l =>
      match l.apply c with
      | .error e => ⟨.error e, l.pending, l.ready⟩ :: views rest l
      | .ok l => ⟨.ok c.tx.hash, l.pending, l.ready⟩ :: views rest l

end PlainPools

/-! ## The simulation -/

namespace Mempool

/-- The two lists that a mempool stands for. -/
def plain (m : Mempool) : PlainPools := ⟨m.pending.toList, m.ready.toList⟩

/-- Both pools are indexed. -/
structure Indexed (m : Mempool) : Prop where
  pending : m.pending.Indexed
  ready : m.ready.Indexed

theorem indexed_empty : empty.Indexed := ⟨Pool.indexed_empty, Pool.indexed_empty⟩

/-- A call on a mempool comes out as its counterpart on two lists does: with the same error, or with
the lists that the changed mempool stands for. -/
inductive Matches (hash : TxHash) :
    Except MempoolError Change → Except MempoolError PlainPools → Prop
  | error (e : MempoolError) : Matches hash (.error e) (.error e)
  | ok {c : Change} (event_hash : c.event.hash = hash) (indexed : c.mempool.Indexed) :
      Matches hash (.ok c) (.ok c.mempool.plain)

variable {m : Mempool}

theorem Indexed.insert (hm : m.Indexed) (tx : Transaction) :
    Matches tx.hash (m.insert tx) (m.plain.insert tx) := by
  rw [Mempool.insert, PlainPools.insert_eq]
  cases hname : identify tx with
  | error e => exact .error e
  | ok name =>
      obtain ⟨signer, hash⟩ := name
      obtain rfl := hash_of_identify hname
      have hpush := hm.pending.toList_push ⟨signer, pendingPriority, tx.hash, tx⟩
      have hplain : PlainPools.mk (m.pending.toList ++ [⟨signer, 0, tx.hash, tx⟩]) m.ready.toList
          = plain ⟨m.pending.push ⟨signer, pendingPriority, tx.hash, tx⟩, m.ready⟩ := by
        rw [plain, hpush]; rfl
      simp only [plain] at hplain ⊢
      rw [hplain]
      exact .ok rfl ⟨hm.pending.push _, hm.ready⟩

/-- Taking from an indexed pool is finding and erasing in its list. -/
theorem take?_eq {p : Pool} (hp : p.Indexed) (signer : Address) (hash : TxHash) :
    (p.take? signer hash = none ∧ p.toList.find? (Entry.isFor signer hash) = none) ∨
    ∃ e rest, p.take? signer hash = some (e, rest) ∧
      p.toList.find? (Entry.isFor signer hash) = some e ∧
      rest.toList = p.toList.eraseP (Entry.isFor signer hash) ∧ rest.Indexed := by
  rcases hp.take?_cases signer hash with
    ⟨hnone, hall⟩ | ⟨older, e, newer, rest, hsome, hlist, holder, hfor, hrest, hindexed⟩
  · exact .inl ⟨hnone, List.find?_eq_none.2 hall⟩
  · refine .inr ⟨e, rest, hsome, ?_, ?_, hindexed⟩
    · exact List.find?_eq_some_iff_append.2
        ⟨hfor, older, newer, hlist, fun a ha => by simpa using holder a ha⟩
    · rw [hrest, hlist, List.eraseP_append_right _ holder, List.eraseP_cons_of_pos hfor]

theorem Indexed.promote (hm : m.Indexed) (tx : Transaction) :
    Matches tx.hash (m.promote tx) (m.plain.promote tx) := by
  rw [Mempool.promote, PlainPools.promote_eq]
  cases hname : identify tx with
  | error e => exact .error e
  | ok name =>
      obtain ⟨signer, hash⟩ := name
      obtain rfl := hash_of_identify hname
      rcases take?_eq hm.pending signer tx.hash with
        ⟨hnone, hfind⟩ | ⟨e, rest, hsome, hfind, hrest, hindexed⟩
      · simp only [plain, hnone, hfind]
        exact .error _
      · have hpush := hm.ready.toList_push { e with priority := readyPriority }
        have hplain : PlainPools.mk rest.toList (m.ready.toList ++ [{ e with priority := 1 }])
            = plain ⟨rest, m.ready.push { e with priority := readyPriority }⟩ := by
          rw [plain, hpush]; rfl
        simp only [plain, hsome, hfind, ← hrest] at hplain ⊢
        rw [hplain]
        exact .ok rfl ⟨hindexed, hm.ready.push _⟩

theorem Indexed.remove (hm : m.Indexed) (tx : Transaction) :
    Matches tx.hash (m.remove tx) (m.plain.remove tx) := by
  rw [Mempool.remove, PlainPools.remove_eq]
  cases hname : identify tx with
  | error e => exact .error e
  | ok name =>
      obtain ⟨signer, hash⟩ := name
      obtain rfl := hash_of_identify hname
      rcases take?_eq hm.ready signer tx.hash with
        ⟨hnone, hfind⟩ | ⟨e, rest, hsome, hfind, hrest, hindexed⟩
      · simp only [plain, hnone, hfind]
        exact .error _
      · simp only [plain, hsome, hfind, ← hrest]
        exact .ok rfl ⟨hm.pending, hindexed⟩

end Mempool

/-! ## What a call changes and tells -/

namespace PoolCall

/-- What the call makes of a mempool. -/
def change : PoolCall → Mempool → Except MempoolError Mempool.Change
  | insert tx, m => m.insert tx
  | promote tx, m => m.promote tx
  | remove tx, m => m.remove tx

/-- The event that tells of the call, when it has succeeded under a name and left so many entries
pending. -/
def told : PoolCall → Address → TxHash → Nat → PoolEvent
  | insert _, signer, hash, pending => .inserted signer hash pending
  | promote _, signer, hash, _ => .promoted signer hash
  | remove _, signer, hash, _ => .removed signer hash

variable {σ : Type} {m : Mempool}

theorem run_eq_call (c : PoolCall) : c.run = Action.call (σ := σ) c.change := by
  cases c <;> rfl

theorem matches_change (c : PoolCall) (hm : m.Indexed) :
    Mempool.Matches c.tx.hash (c.change m) (m.plain.apply c) := by
  cases c with
  | insert tx => exact hm.insert tx
  | promote tx => exact hm.promote tx
  | remove tx => exact hm.remove tx

/-- A call that succeeds has a name for its transaction and tells of it. -/
theorem event_eq_told {c : PoolCall} {r : Mempool.Change} (h : c.change m = .ok r) :
    ∃ signer hash, Mempool.identify c.tx = .ok (signer, hash) ∧
      r.event = c.told signer hash r.mempool.pending.size := by
  cases c with
  | insert tx =>
      simp only [change, Mempool.insert] at h
      split at h
      · cases h
      · next signer hash hname =>
          cases h
          exact ⟨signer, hash, hname, rfl⟩
  | promote tx =>
      simp only [change, Mempool.promote] at h
      split at h
      · cases h
      · next signer hash hname =>
          split at h
          · cases h
          · cases h
            exact ⟨signer, hash, hname, rfl⟩
  | remove tx =>
      simp only [change, Mempool.remove] at h
      split at h
      · cases h
      · next signer hash hname =>
          split at h
          · cases h
          · cases h
            exact ⟨signer, hash, hname, rfl⟩

/-- What a call does to an indexed mempool: it fails as its counterpart on two lists does, or it makes
the same change as that and tells of it. -/
theorem change_cases (c : PoolCall) (hm : m.Indexed) :
    (∃ e, c.change m = .error e ∧ m.plain.apply c = .error e) ∨
    ∃ signer, ∃ m' : Mempool, Mempool.identify c.tx = .ok (signer, c.tx.hash) ∧
      c.change m = .ok ⟨m', c.told signer c.tx.hash m'.pending.toList.length⟩ ∧
      m.plain.apply c = .ok m'.plain ∧ m'.Indexed := by
  have hmatches := c.matches_change hm
  generalize m.plain.apply c = plain at hmatches ⊢
  cases hchange : c.change m with
  | error e =>
      rw [hchange] at hmatches
      cases hmatches
      exact .inl ⟨e, rfl, rfl⟩
  | ok r =>
      obtain ⟨signer, hash, hname, hevent⟩ := event_eq_told hchange
      obtain rfl := Mempool.hash_of_identify hname
      have hsize : r.mempool.pending.toList.length = r.mempool.pending.size :=
        r.mempool.pending.size_eq_length.symm
      rw [hchange] at hmatches
      cases hmatches with
      | ok _ hindexed =>
          exact .inr ⟨signer, r.mempool, hname, by rw [hsize, ← hevent], rfl, hindexed⟩

/-- What a call does at a site: it fails and changes nothing, or it makes the change, answers with the
hash, and publishes the event. -/
theorem run_cases (c : PoolCall) {s : Site σ} (hs : s.mempool.Indexed) :
    (∃ e, s.mempool.plain.apply c = .error e ∧ c.run s = (.error e, s)) ∨
    ∃ signer, ∃ s' : Site σ, Mempool.identify c.tx = .ok (signer, c.tx.hash) ∧
      s.mempool.plain.apply c = .ok s'.mempool.plain ∧ c.run s = (.ok c.tx.hash, s') ∧
      s'.mempool.Indexed ∧ s'.events
        = s.events ++ [.pool (c.told signer c.tx.hash s'.mempool.pending.toList.length)] := by
  have htold : ∀ signer hash n, (c.told signer hash n).hash = hash := fun _ _ _ => by
    cases c <;> rfl
  rcases c.change_cases hs with
    ⟨e, hchange, hplain⟩ | ⟨signer, m, hname, hchange, hplain, hindexed⟩
  · exact .inl ⟨e, hplain, by rw [run_eq_call, Action.call, hchange]⟩
  · refine .inr ⟨signer, { s with
      mempool := m
      events := s.events ++ [.pool (c.told signer c.tx.hash m.pending.toList.length)] },
      hname, hplain, ?_, hindexed, rfl⟩
    rw [run_eq_call, Action.call, hchange]
    simp only [htold]

end PoolCall

/-! ## Runs -/

section Runs

variable {σ : Type}

/-- Calls on an indexed mempool look like calls on the lists it stands for. -/
theorem PoolCall.views_eq (calls : List PoolCall) (s : Site σ) (hs : s.mempool.Indexed) :
    views calls s = PlainPools.views calls s.mempool.plain := by
  -- The site is generalised: the calls that remain are made where the first one has led.
  induction calls generalizing s with
  | nil => rfl
  | cons c rest ih =>
      rw [views, PlainPools.views]
      rcases c.run_cases hs with ⟨e, hplain, hrun⟩ | ⟨_, s', -, hplain, hrun, hs', -⟩
      · rw [hplain, hrun]
        simp only [ih s hs]
        rfl
      · rw [hplain, hrun]
        simp only [ih s' hs']
        rfl

/-- **A mempool is two plain lists.** Whatever calls are made on an empty mempool, the answer to each
of them and the entries of both pools after it are those of two lists that are searched from the
front. -/
theorem views_eq_plain_views (calls : List PoolCall) (s : Site σ) :
    PoolCall.views calls { s with mempool := Mempool.empty } = PlainPools.views calls {} :=
  PoolCall.views_eq calls _ Mempool.indexed_empty

end Runs

end BidQuorum
