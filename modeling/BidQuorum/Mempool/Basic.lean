import BidQuorum.Mempool.Pool

set_option autoImplicit false

/-! # The mempool

A transaction waits in the pending pool until a vote extension has witnessed it, and in the ready
pool from then until it is in a block. Both pools keep the order of arrival, and equal transactions
may be in them more than once. A call names a transaction; what it finds is the oldest entry with
the same first signer and the same hash. -/

namespace BidQuorum

structure Mempool where
  pending : Pool := {}
  ready : Pool := {}

/-- The ways a call can fail; it then changes nothing. -/
inductive MempoolError where
  /-- No signature of the transaction verifies, so it has no signer. -/
  | missingSignature
  /-- The pool that was searched holds no such transaction. -/
  | notFound (hash : TxHash)
  /-- The transaction has no bytes to hash. -/
  | unhashable (reason : String)
deriving DecidableEq

def MempoolError.message : MempoolError → String
  | missingSignature => "transaction has no verifiable signature"
  | notFound hash => s!"transaction {hash} not found in the mempool"
  | unhashable reason => s!"failed to hash transaction: {reason}"

/-- What a change of the mempool reports. -/
inductive PoolEvent where
  /-- A transaction was added to the pending pool, which then held `pending` of them. -/
  | inserted (signer : Address) (hash : TxHash) (pending : Nat)
  /-- A transaction moved from the pending pool to the ready pool. -/
  | promoted (signer : Address) (hash : TxHash)
  /-- A transaction was taken out of the ready pool. -/
  | removed (signer : Address) (hash : TxHash)
deriving DecidableEq

/-- The hash of the transaction that an event is about. -/
def PoolEvent.hash : PoolEvent → TxHash
  | inserted _ hash _ => hash
  | promoted _ hash => hash
  | removed _ hash => hash

namespace Mempool

def empty : Mempool := {}

/-- The priority of pending entries. -/
def pendingPriority : Nat := 0

/-- The priority of ready entries. -/
def readyPriority : Nat := 1

/-- The number of transactions in both pools. -/
def size (m : Mempool) : Nat := m.pending.size + m.ready.size

def isEmpty (m : Mempool) : Bool := m.size == 0

/-- The pending transactions, in order. -/
def pendingTxs (m : Mempool) : List Transaction := m.pending.toList.map Entry.tx

/-- The ready transactions, in order. -/
def readyTxs (m : Mempool) : List Transaction := m.ready.toList.map Entry.tx

/-- The signer and the hash that a transaction is found by. -/
def identify (tx : Transaction) : Except MempoolError (Address × TxHash) :=
  match tx.verifiedSigners with
  | [] => .error .missingSignature
  | signer :: _ =>
      match tx.computeHash with
      | .error reason => .error (.unhashable reason)
      | .ok hash => .ok (signer.address, hash)

/-- A successful call: the mempool after it and the event that reports it. -/
structure Change where
  mempool : Mempool
  event : PoolEvent

/-- Add a transaction at the back of the pending pool. -/
def insert (m : Mempool) (tx : Transaction) : Except MempoolError Change :=
  match identify tx with
  | .error e => .error e
  | .ok (signer, hash) =>
      let pending := m.pending.push ⟨signer, pendingPriority, hash, tx⟩
      .ok ⟨{ m with pending }, .inserted signer hash pending.size⟩

/-- Move the oldest such transaction from the pending pool to the back of the ready pool. -/
def promote (m : Mempool) (tx : Transaction) : Except MempoolError Change :=
  match identify tx with
  | .error e => .error e
  | .ok (signer, hash) =>
      match m.pending.take? signer hash with
      | none => .error (.notFound hash)
      | some (entry, pending) =>
          let ready := m.ready.push { entry with priority := readyPriority }
          .ok ⟨{ pending, ready }, .promoted signer hash⟩

/-- Take the oldest such transaction out of the ready pool. -/
def remove (m : Mempool) (tx : Transaction) : Except MempoolError Change :=
  match identify tx with
  | .error e => .error e
  | .ok (signer, hash) =>
      match m.ready.take? signer hash with
      | none => .error (.notFound hash)
      | some (_, ready) => .ok ⟨{ m with ready }, .removed signer hash⟩

end Mempool

end BidQuorum
