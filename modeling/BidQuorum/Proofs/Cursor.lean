import BidQuorum.Mempool.Cursor
import BidQuorum.Proofs.Program
import BidQuorum.Proofs.Witness

set_option autoImplicit false

/-! # Cursors walk over snapshots

Whoever goes over a pool with a cursor meets the entries that the pool had when the cursor was made, one
after another, whatever is done with the mempool meanwhile. A cursor keeps its place as an optional
number, and there are three ways to be: before the first entry, on an entry, and parked behind the last
one. Seen from outside, it is a `Walk`: the entries, how many of them have been passed, and what the
latest step has led to. Every move keeps the two in step (`Cursor.Follows`), so all that a cursor ever
answers can be read off its walk (`cursors_walk_over_snapshots`). -/

namespace BidQuorum

/-! ## Walks -/

/-- A walk over entries, as it is seen from outside. -/
structure Walk where
  entries : List Entry
  /-- How many entries have been passed since the walk began, or began anew. -/
  passed : Nat := 0
  /-- What the latest step has led to; nothing before the first step. -/
  latest : Option Entry := none

namespace Cursor

/-- A way to move a cursor. -/
inductive Move where
  | next
  | nth (n : Nat)
  | rewind

/-- The answer to a move, and the cursor after it. -/
def move (c : Cursor) : Move → Option Transaction × Cursor
  | .next => c.next
  | .nth n => c.nth n
  | .rewind => (none, c.rewind)

/-- The answers to several moves, one after another. -/
def answers : List Move → Cursor → List (Option Transaction)
  | [], _ => []
  | m :: rest, c => (c.move m).1 :: answers rest (c.move m).2

end Cursor

namespace Walk

/-- Pass `n` entries and then the one behind them, which is what the step has led to. The walk ends
where the entries do. -/
def advance (w : Walk) (n : Nat) : Walk :=
  { w with
    passed := min (w.passed + n + 1) w.entries.length
    latest := w.entries[w.passed + n]? }

/-- The walk after a move. -/
def move (w : Walk) : Cursor.Move → Walk
  | .next => w.advance 0
  | .nth n => w.advance n
  | .rewind => { entries := w.entries }

variable {w : Walk} {n : Nat} {e : Entry}

theorem advance_of_some (h : w.entries[w.passed + n]? = some e) :
    w.advance n = ⟨w.entries, w.passed + n + 1, some e⟩ := by
  obtain ⟨hlt, -⟩ := List.getElem?_eq_some_iff.1 h
  rw [advance, h, Nat.min_eq_left hlt]

theorem advance_of_none (h : w.entries[w.passed + n]? = none) :
    w.advance n = ⟨w.entries, w.entries.length, none⟩ := by
  have hle := List.getElem?_eq_none_iff.1 h
  rw [advance, h, Nat.min_eq_right (Nat.le_succ_of_le hle)]

/-- As long as there is an entry to step onto, one step and then `n` entries more are `n + 1` entries. -/
theorem advance_succ (h : w.entries[w.passed]? = some e) :
    (w.advance 0).advance n = w.advance (n + 1) := by
  rw [advance_of_some (n := 0) h, advance, advance]
  simp only [Nat.add_zero, Nat.add_right_comm w.passed 1 n, Nat.add_assoc]

end Walk

/-! ## Cursors follow walks -/

namespace Cursor

/-- The cursor is where the walk has come to. -/
inductive Follows : Cursor → Walk → Prop
  /-- Before the first entry. -/
  | before (entries : List Entry) : Follows ⟨entries, none⟩ ⟨entries, 0, none⟩
  /-- On the entry that was passed last. -/
  | on {entries : List Entry} {i : Nat} {e : Entry} (h : entries[i]? = some e) :
      Follows ⟨entries, some i⟩ ⟨entries, i + 1, some e⟩
  /-- Behind the last entry. -/
  | behind (entries : List Entry) :
      Follows ⟨entries, some entries.length⟩ ⟨entries, entries.length, none⟩

namespace Follows

variable {c : Cursor} {w : Walk}

theorem entries_eq (h : c.Follows w) : c.entries = w.entries := by
  cases h <;> rfl

/-- While there are entries to pass, the place that a step leads to is the number of those passed. -/
theorem nextPosition_eq (h : c.Follows w) (hlt : w.passed < w.entries.length) :
    c.nextPosition = w.passed := by
  cases h with
  | before => rfl
  | on => rfl
  | behind => exact absurd hlt (Nat.lt_irrefl _)

/-- The entry under the cursor is what the latest step has led to. -/
theorem current?_eq (h : c.Follows w) : c.current? = w.latest := by
  cases h with
  | before => rfl
  | on h => exact h
  | behind => exact List.getElem?_eq_none (Nat.le_refl _)

/-- What is left are the entries that have not been passed. Parked behind the last one, the cursor has
no more of them than before the step that led there. -/
theorem remaining_eq (h : c.Follows w) : c.remaining = w.entries.length - w.passed := by
  cases h with
  | before => rfl
  | on => rfl
  | behind entries =>
      show entries.length - (entries.length + 1) = entries.length - entries.length
      omega

theorem next_of_some (h : c.Follows w) {e : Entry} (he : w.entries[w.passed]? = some e) :
    c.next = (some e.tx, ⟨w.entries, some w.passed⟩) := by
  obtain ⟨hlt, -⟩ := List.getElem?_eq_some_iff.1 he
  rw [next, h.nextPosition_eq hlt, h.entries_eq, he]

theorem next_of_none (h : c.Follows w) (he : w.entries[w.passed]? = none) :
    c.next = (none, ⟨w.entries, some w.entries.length⟩) := by
  have hnone : c.entries[c.nextPosition]? = none := by
    cases h with
    | before => exact he
    | on => exact he
    | behind entries => exact List.getElem?_eq_none (Nat.le_succ entries.length)
  rw [next, hnone, h.entries_eq]

/-! ## Moves -/

theorem next (h : c.Follows w) :
    c.next.1 = (w.advance 0).latest.map Entry.tx ∧ c.next.2.Follows (w.advance 0) := by
  cases he : w.entries[w.passed]? with
  | some e =>
      rw [h.next_of_some he, Walk.advance_of_some (n := 0) he]
      exact ⟨rfl, .on he⟩
  | none =>
      rw [h.next_of_none he, Walk.advance_of_none (n := 0) he]
      exact ⟨rfl, .behind w.entries⟩

theorem nth (h : c.Follows w) (n : Nat) :
    (c.nth n).1 = (w.advance n).latest.map Entry.tx ∧ (c.nth n).2.Follows (w.advance n) := by
  induction n generalizing c w with
  | zero => exact h.next
  | succ n ih =>
      obtain ⟨-, hnext⟩ := h.next
      cases he : w.entries[w.passed]? with
      | some e =>
          rw [← Walk.advance_succ he, Cursor.nth, h.next_of_some he]
          rw [h.next_of_some he] at hnext
          exact ih hnext
      | none =>
          -- The first step ends the walk, so there is no second one.
          have hbehind : w.entries[w.passed + (n + 1)]? = none :=
            List.getElem?_eq_none (Nat.le_trans (List.getElem?_eq_none_iff.1 he) (Nat.le_add_right _ _))
          rw [Walk.advance_of_none hbehind, Cursor.nth, h.next_of_none he]
          exact ⟨rfl, .behind w.entries⟩

/-- Every move answers with what it has led to, and the cursor follows. -/
theorem move (h : c.Follows w) (m : Move) :
    (c.move m).1 = (w.move m).latest.map Entry.tx ∧ (c.move m).2.Follows (w.move m) := by
  cases m with
  | next => exact h.next
  | nth n => exact h.nth n
  | rewind =>
      obtain ⟨entries, position⟩ := c
      obtain rfl : entries = w.entries := h.entries_eq
      exact ⟨rfl, .before w.entries⟩

/-- Behind the last entry every step leads to nothing, as long as the cursor is not rewound. -/
theorem answers_eq_none (h : c.Follows w) (hend : w.passed = w.entries.length) {moves : List Move}
    (hmoves : .rewind ∉ moves) : ∀ answer ∈ c.answers moves, answer = none := by
  induction moves generalizing c w with
  | nil => nofun
  | cons m rest ih =>
      rw [List.mem_cons, not_or] at hmoves
      have hnone : ∀ n, w.advance n = ⟨w.entries, w.entries.length, none⟩ := fun n =>
        Walk.advance_of_none (List.getElem?_eq_none (hend ▸ Nat.le_add_right _ n))
      have hmove : w.move m = ⟨w.entries, w.entries.length, none⟩ := by
        cases m with
        | next => exact hnone 0
        | nth n => exact hnone n
        | rewind => exact absurd rfl hmoves.1
      obtain ⟨hanswer, hfollows⟩ := h.move m
      rw [hmove] at hanswer hfollows
      exact List.forall_mem_cons.2 ⟨hanswer, ih hfollows rfl hmoves.2⟩

/-- A number of steps leads to the entries that have not been passed, in order. -/
theorem walk_eq (h : c.Follows w) (n : Nat) :
    (c.walk n).1 = ((w.entries.drop w.passed).take n).map Entry.tx := by
  induction n generalizing c w with
  | zero => rfl
  | succ n ih =>
      obtain ⟨-, hnext⟩ := h.next
      cases he : w.entries[w.passed]? with
      | some e =>
          obtain ⟨hlt, hget⟩ := List.getElem?_eq_some_iff.1 he
          rw [h.next_of_some he, Walk.advance_of_some (n := 0) he] at hnext
          rw [Cursor.walk, h.next_of_some he, List.drop_eq_getElem_cons hlt, hget, List.take_succ_cons,
            List.map_cons, ← ih hnext]
      | none =>
          rw [Cursor.walk, h.next_of_none he, List.drop_eq_nil_of_le (List.getElem?_eq_none_iff.1 he)]
          rfl

theorem rest_eq (h : c.Follows w) : c.rest.1 = (w.entries.drop w.passed).map Entry.tx := by
  rw [rest, h.walk_eq, List.take_of_length_le]
  rw [List.length_drop, h.remaining_eq]
  exact Nat.le_succ _

end Follows

theorem follows_ofPool (p : Pool) : (ofPool p).Follows { entries := p.toList } := .before p.toList

/-- A cursor over a pool leads to all of its transactions, in order. -/
theorem rest_ofPool (p : Pool) : (ofPool p).rest.1 = p.toList.map Entry.tx :=
  (follows_ofPool p).rest_eq

end Cursor

/-! ## Readers -/

/-- A cursor in use, with the walk that it has made. -/
structure Reader where
  cursor : Cursor
  walk : Walk

namespace Reader

/-- A reader that sets out over a pool. -/
def ofPool (p : Pool) : Reader := ⟨.ofPool p, { entries := p.toList }⟩

def move (r : Reader) (m : Cursor.Move) : Reader := ⟨(r.cursor.move m).2, r.walk.move m⟩

end Reader

/-- A site, and the readers that go over the pools of its mempool. -/
structure Browsing (σ : Type) where
  site : Site σ
  readers : List Reader := []

/-- Something that is done where pools are browsed. -/
inductive Browse (σ : Type) where
  /-- A call of the mempool, or the work of a validator. -/
  | task (t : Task σ)
  /-- A reader sets out over one of the pools. -/
  | read (pool : Mempool → Pool)
  /-- The cursor of a reader is moved. -/
  | move (reader : Nat) (m : Cursor.Move)
  /-- The cursor of a reader is copied, with its place. -/
  | copy (reader : Nat)

namespace Browse

variable {σ : Type}

def run (b : Browsing σ) : Browse σ → Browsing σ
  | task t => { b with site := (t.run b.site).2 }
  | read pool => { b with readers := b.readers ++ [.ofPool (pool b.site.mempool)] }
  | move reader m => { b with readers := b.readers.modify reader (·.move m) }
  | copy reader => { b with readers := b.readers ++ b.readers[reader]?.toList }

/-- Several of these, one after another. -/
def runAll (b : Browsing σ) (steps : List (Browse σ)) : Browsing σ := steps.foldl run b

variable {b : Browsing σ}

/-- Cursors follow their walks, whatever is done. -/
theorem follows_run (hb : ∀ r ∈ b.readers, r.cursor.Follows r.walk) (step : Browse σ) :
    ∀ r ∈ (step.run b).readers, r.cursor.Follows r.walk := by
  cases step with
  | task t => exact hb
  | read pool =>
      exact List.forall_mem_append.2
        ⟨hb, List.forall_mem_singleton.2 (Cursor.follows_ofPool (pool b.site.mempool))⟩
  | move reader m =>
      intro r hr
      obtain ⟨k, hk⟩ := List.getElem?_of_mem hr
      simp only [run, List.getElem?_modify] at hk
      obtain ⟨before, hbefore, rfl⟩ := Option.map_eq_some_iff.1 hk
      have hfollows := hb before (List.mem_of_getElem? hbefore)
      split
      · exact (hfollows.move m).2
      · exact hfollows
  | copy reader =>
      refine List.forall_mem_append.2 ⟨hb, fun r hr => ?_⟩
      exact hb r (List.mem_of_getElem? (Option.mem_toList.1 hr))

theorem follows_runAll (hb : ∀ r ∈ b.readers, r.cursor.Follows r.walk) (steps : List (Browse σ)) :
    ∀ r ∈ (runAll b steps).readers, r.cursor.Follows r.walk := by
  induction steps generalizing b with
  | nil => exact hb
  | cons step rest ih => exact ih (follows_run hb step)

theorem getElem?_append_of_eq_some {α : Type} {as : List α} {i : Nat} {a : α} (h : as[i]? = some a)
    (more : List α) : (as ++ more)[i]? = some a := by
  rw [List.getElem?_append_left (List.getElem?_eq_some_iff.1 h).1, h]

/-- A reader stays in its place among the readers, and goes on over the same entries. -/
theorem exists_reader_run {reader : Nat} {r : Reader} (h : b.readers[reader]? = some r)
    (step : Browse σ) :
    ∃ r', (step.run b).readers[reader]? = some r' ∧ r'.walk.entries = r.walk.entries := by
  cases step with
  | task t => exact ⟨r, h, rfl⟩
  | read pool => exact ⟨r, getElem?_append_of_eq_some h _, rfl⟩
  | copy other => exact ⟨r, getElem?_append_of_eq_some h _, rfl⟩
  | move other m =>
      simp only [run, List.getElem?_modify, h]
      refine ⟨_, rfl, ?_⟩
      split
      · cases m <;> rfl
      · rfl

theorem exists_reader_runAll {reader : Nat} {r : Reader} (h : b.readers[reader]? = some r)
    (steps : List (Browse σ)) :
    ∃ r', (runAll b steps).readers[reader]? = some r' ∧ r'.walk.entries = r.walk.entries := by
  induction steps generalizing b r with
  | nil => exact ⟨r, h, rfl⟩
  | cons step rest ih =>
      obtain ⟨next, hnext, hentries⟩ := exists_reader_run h step
      obtain ⟨last, hlast, hentries'⟩ := ih hnext
      exact ⟨last, hlast, hentries'.trans hentries⟩

/-- A reader is left as it is by all but the moves of its own cursor. -/
theorem readers_run_of_ne {reader : Nat} {r : Reader} (h : b.readers[reader]? = some r)
    {step : Browse σ} (hstep : ∀ m, step ≠ .move reader m) :
    (step.run b).readers[reader]? = some r := by
  cases step with
  | task t => exact h
  | read pool => exact getElem?_append_of_eq_some h _
  | copy other => exact getElem?_append_of_eq_some h _
  | move other m =>
      have hne : other ≠ reader := fun he => hstep m (he ▸ rfl)
      rw [run, List.getElem?_modify_ne _ _ hne, h]

theorem readers_runAll_of_notMem {reader : Nat} {r : Reader} (h : b.readers[reader]? = some r)
    {steps : List (Browse σ)} (hsteps : ∀ m, .move reader m ∉ steps) :
    (runAll b steps).readers[reader]? = some r := by
  induction steps generalizing b with
  | nil => exact h
  | cons step rest ih =>
      refine ih (readers_run_of_ne h fun m he => ?_) fun m hm => ?_
      · exact hsteps m (he ▸ List.mem_cons_self)
      · exact hsteps m (List.mem_cons_of_mem _ hm)

end Browse

/-- **A cursor walks over a snapshot.** Let readers set out over the pools of any mempool, let their
cursors be moved and copied, and let anything else be done there, in any order. A reader goes over the
entries that its pool held when it set out. A copy starts where its original is, and neither of them
moves the other.

With `passed` entries behind it, a step leads to the next one, a step over `n` others to the one behind
these, and to nothing where there is none; once all are passed, every step leads to nothing until the
cursor is rewound. The entry under the cursor is what the latest step has led to. What is said to be left
are the entries not passed yet, and the entries themselves stay as they are. -/
theorem cursors_walk_over_snapshots {σ : Type} (site : Site σ) (steps : List (Browse σ)) :
    let done := Browse.runAll { site } steps
    (∀ before pool later, steps = before ++ .read pool :: later →
      let here := Browse.runAll { site } before
      ∃ r, done.readers[here.readers.length]? = some r ∧
        r.walk.entries = (pool here.site.mempool).toList) ∧
    (∀ before reader later, steps = before ++ .copy reader :: later →
      let here := Browse.runAll { site } before
      ∀ r, here.readers[reader]? = some r →
        ((∀ m, .move here.readers.length m ∉ later) →
          done.readers[here.readers.length]? = some r) ∧
        ((∀ m, .move reader m ∉ later) → done.readers[reader]? = some r)) ∧
    ∀ r ∈ done.readers,
      let c := r.cursor
      let w := r.walk
      (c.next.1 = w.entries[w.passed]?.map Entry.tx ∧
        (∀ n, (c.nth n).1 = w.entries[w.passed + n]?.map Entry.tx) ∧
        ∀ m, (c.move m).1 = (w.move m).latest.map Entry.tx) ∧
      (w.passed = w.entries.length →
        ∀ moves, .rewind ∉ moves → ∀ answer ∈ c.answers moves, answer = none) ∧
      (c.current? = w.latest ∧ c.tx? = w.latest.map Entry.tx) ∧
      (c.remaining = w.entries.length - w.passed ∧
        c.sizeHint = (w.entries.length - w.passed, some (w.entries.length - w.passed))) ∧
      c.entries = w.entries ∧ c.isEmpty = w.entries.isEmpty := by
  intro done
  have hdone : ∀ {before : List (Browse σ)} {step : Browse σ} {later : List (Browse σ)},
      steps = before ++ step :: later →
      done = Browse.runAll (step.run (Browse.runAll { site } before)) later := by
    rintro before step later rfl
    exact List.foldl_append
  refine ⟨?_, ?_, fun r hr => ?_⟩
  · intro before pool later hsplit here
    have hset : (Browse.run here (.read pool)).readers[here.readers.length]?
        = some (.ofPool (pool here.site.mempool)) := List.getElem?_concat_length
    rw [hdone hsplit]
    exact Browse.exists_reader_runAll hset later
  · intro before reader later hsplit here r hr
    have hcopy : (Browse.run here (.copy reader)).readers = here.readers ++ [r] := by
      rw [Browse.run, hr]
      rfl
    rw [hdone hsplit]
    refine ⟨fun hnew => ?_, fun hold => ?_⟩
    · refine Browse.readers_runAll_of_notMem ?_ hnew
      rw [hcopy]
      exact List.getElem?_concat_length
    · refine Browse.readers_runAll_of_notMem ?_ hold
      exact Browse.readers_run_of_ne hr nofun
  · have hfollows := Browse.follows_runAll (b := { site }) nofun steps r hr
    refine ⟨⟨hfollows.next.1, fun n => (hfollows.nth n).1, fun m => (hfollows.move m).1⟩,
      fun hend moves => hfollows.answers_eq_none hend, ⟨hfollows.current?_eq, ?_⟩,
      ⟨hfollows.remaining_eq, ?_⟩, hfollows.entries_eq, ?_⟩
    · rw [Cursor.tx?, hfollows.current?_eq]
    · rw [Cursor.sizeHint, hfollows.remaining_eq]
    · rw [Cursor.isEmpty, hfollows.entries_eq]

/-- A cursor over one pending transaction is copied on it and moved on, when the transaction is pending
no more. The copy stays on the transaction, and the original has come to the end. -/
theorem copy_left_on_signedBid :
    let b := Browse.runAll { site := insertedSite signedBid }
      [.read Mempool.pending, .move 0 .next, .copy 0, .task (.call (.promote signedBid)),
        .move 0 .next]
    ∃ original copy, b.readers = [original, copy] ∧
      original.cursor.tx? = none ∧ original.cursor.next.1 = none ∧
      copy.cursor.tx? = some signedBid ∧ copy.cursor.remaining = 0 := by
  have hpending := pendingTxs_signedBid
  generalize insertedSite signedBid = site at hpending ⊢
  intro b
  obtain ⟨e, hlist, htx⟩ := List.map_eq_singleton_iff.1 hpending
  let start := Reader.ofPool site.mempool.pending
  have hon : (start.move .next).walk = ⟨[e], 1, some e⟩ := by
    simp [start, Reader.ofPool, Reader.move, Walk.move, Walk.advance, hlist]
  have hend : ((start.move .next).move .next).walk = ⟨[e], 1, none⟩ := by
    rw [Reader.move, hon]
    rfl
  have hreaders : b.readers = [(start.move .next).move .next, start.move .next] := rfl
  obtain ⟨-, -, hfacts⟩ := cursors_walk_over_snapshots site
    [.read Mempool.pending, .move 0 .next, .copy 0, .task (.call (.promote signedBid)),
      .move 0 .next]
  obtain ⟨⟨hnext, -⟩, -, ⟨-, htx?⟩, -⟩ := hfacts ((start.move .next).move .next) List.mem_cons_self
  obtain ⟨-, -, ⟨-, hcopy⟩, ⟨hleft, -⟩, -⟩ :=
    hfacts (start.move .next) (List.mem_cons_of_mem _ List.mem_cons_self)
  rw [hend] at hnext htx?
  rw [hon] at hcopy hleft
  exact ⟨_, _, hreaders, htx?, hnext, hcopy.trans (congrArg some htx), hleft⟩

end BidQuorum
