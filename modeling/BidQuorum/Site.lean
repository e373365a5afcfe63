import BidQuorum.Event
import BidQuorum.Log

set_option autoImplicit false

/-! # Where work is done

A validator works on a mempool that it shares with others, and what it does is observed: events are
published and records are logged. A site holds the mempool and the observations so far, together
with whatever state the validator's subscribers and its proposal builder keep outside. An action is
a piece of work at a site. No action can read back what has been observed through the interface of
this file, so observers have no influence on the work. -/

namespace BidQuorum

structure Site (σ : Type) where
  mempool : Mempool
  /-- The state kept by subscribers and proposal builders. -/
  outside : σ
  /-- The events published so far, in order. -/
  events : List Event := []
  /-- The records logged so far, in order. -/
  log : List LogRecord := []

/-- Work at a site. -/
abbrev Action (σ α : Type) := StateM (Site σ) α

namespace Action

variable {σ : Type}

def publish (e : Event) : Action σ Unit :=
  modify fun s => { s with events := s.events ++ [e] }

def publishAll (events : List Event) : Action σ Unit :=
  modify fun s => { s with events := s.events ++ events }

def report (records : List LogRecord) : Action σ Unit :=
  modify fun s => { s with log := s.log ++ records }

def logLine (level : LogLevel) (text : String) : Action σ Unit := report [⟨level, text⟩]

/-- The mempool as it is now. -/
def mempool : Action σ Mempool := do return (← get).mempool

/-- Make a call on the mempool. If it succeeds, the change takes place and is published; if it
fails, nothing happens. -/
def call (change : Mempool → Except MempoolError Mempool.Change) :
    Action σ (Except MempoolError TxHash) := fun s =>
  match change s.mempool with
  | .error e => (.error e, s)
  | .ok c =>
      (.ok c.event.hash, { s with mempool := c.mempool, events := s.events ++ [.pool c.event] })

/-- Add a transaction to the pending pool; the answer is its hash. -/
def insertTx (tx : Transaction) : Action σ (Except MempoolError TxHash) := call (·.insert tx)

/-- Move a pending transaction to the ready pool. -/
def promoteTx (tx : Transaction) : Action σ (Except MempoolError TxHash) := call (·.promote tx)

/-- Take a transaction out of the ready pool. -/
def removeTx (tx : Transaction) : Action σ (Except MempoolError TxHash) := call (·.remove tx)

end Action

end BidQuorum
