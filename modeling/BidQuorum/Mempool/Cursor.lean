import BidQuorum.Mempool.Basic

set_option autoImplicit false

/-! # Cursors

A cursor walks over the entries that a pool had when the cursor was made; what happens to the pool
later does not show. It starts before the first entry, each step moves it onto the next one, and a
step past the last parks it behind them all. -/

namespace BidQuorum

structure Cursor where
  entries : List Entry
  /-- The place of the entry under the cursor; absent before the first step. -/
  position : Option Nat := none

namespace Cursor

/-- A cursor over the entries of a pool. -/
def ofPool (pool : Pool) : Cursor := { entries := pool.toList }

/-- The entry under the cursor. -/
def current? (c : Cursor) : Option Entry :=
  match c.position with
  | none => none
  | some i => c.entries[i]?

/-- The transaction under the cursor. -/
def tx? (c : Cursor) : Option Transaction := c.current?.map Entry.tx

/-- The place that a step leads to. -/
def nextPosition (c : Cursor) : Nat :=
  match c.position with
  | none => 0
  | some i => i + 1

/-- One step: the transaction that it leads to, if there is one, and the cursor after it. -/
def next (c : Cursor) : Option Transaction × Cursor :=
  match c.entries[c.nextPosition]? with
  | some e => (some e.tx, { c with position := some c.nextPosition })
  | none => (none, { c with position := some c.entries.length })

/-- The transaction after `n` others. The walk ends where the entries do. -/
def nth : (n : Nat) → Cursor → Option Transaction × Cursor
  | 0, c => c.next
  | n + 1, c =>
      match c.next with
      | (none, c) => (none, c)
      | (some _, c) => nth n c

/-- How many steps still lead to a transaction. -/
def remaining (c : Cursor) : Nat := c.entries.length - c.nextPosition

/-- A lower and an upper bound on how many steps still lead to a transaction; both are exact. -/
def sizeHint (c : Cursor) : Nat × Option Nat := (c.remaining, some c.remaining)

/-- The transactions of at most `n` steps, ending where the entries do. -/
def walk : (n : Nat) → Cursor → List Transaction × Cursor
  | 0, c => ([], c)
  | n + 1, c =>
      match c.next with
      | (none, c) => ([], c)
      | (some tx, c) =>
          let later := walk n c
          (tx :: later.1, later.2)

/-- All transactions still ahead, and the cursor behind them all. -/
def rest (c : Cursor) : List Transaction × Cursor := walk (c.remaining + 1) c

/-- The cursor before the first entry again. -/
def rewind (c : Cursor) : Cursor := { c with position := none }

/-- Whether there are no entries, wherever the cursor is. -/
def isEmpty (c : Cursor) : Bool := c.entries.isEmpty

end Cursor

end BidQuorum
