import BidQuorum.Validator.Basic

set_option autoImplicit false

/-! # Making vote extensions

To extend its vote, a validator goes over the pending transactions as they are at the start. Bids go
into the extension as they are met. Every other message is offered to all subscribers in the order
of their keys, and the last contribution that a subscriber made is kept. After its messages each
transaction is promoted, whether or not anyone made use of it. A bid that cannot be written, a
subscriber that fails, or a transaction that cannot be promoted, is logged and stops nothing. -/

namespace BidQuorum.Validator

variable {σ : Type}

/-- What a pass over the pending transactions has gathered so far. -/
structure Gathered where
  bids : List Bytes := []
  extraInfo : TextMap Bytes := .empty
  promoted : Nat := 0

/-- Offer a message to subscribers in turn. A contribution replaces what its subscriber contributed
before. -/
def offer (height : Height) (message : ForeignMessage) :
    List (String × Subscriber σ) → TextMap Bytes → Action σ (TextMap Bytes)
  | [], info => pure info
  | (key, subscriber) :: rest, info => do
      match ← subscriber.extend height message with
      | .ok bytes => offer height message rest (info.insert key bytes)
      | .error reason =>
          Action.logLine .warn s!"Subscriber {key} failed to extend vote: {reason}"
          offer height message rest info

/-- Gather the messages of a transaction. -/
def gatherMessages (v : Validator σ) (height : Height) :
    List Message → Gathered → Action σ Gathered
  | [], g => pure g
  | .bid bid :: rest, g => do
      match bid.write with
      | .ok bytes => v.gatherMessages height rest { g with bids := g.bids ++ [bytes] }
      | .error reason =>
          Action.logLine .error s!"Failed to serialize bid for vote extension: {reason}"
          v.gatherMessages height rest g
  | .foreign message :: rest, g => do
      let extraInfo ← offer height message v.subscribers.entries g.extraInfo
      v.gatherMessages height rest { g with extraInfo }

/-- Gather transactions, promoting each after its messages. -/
def gatherAll (v : Validator σ) (height : Height) :
    List Transaction → Gathered → Action σ Gathered
  | [], g => pure g
  | tx :: rest, g => do
      let g ← v.gatherMessages height tx.messages g
      match ← Action.promoteTx tx with
      | .ok _ => v.gatherAll height rest { g with promoted := g.promoted + 1 }
      | .error e =>
          Action.logLine .warn s!"Unable to promote mempool transaction: {e.message}"
          v.gatherAll height rest g

/-- Drain the pending pool into the vote extension for `height`; the answer is its payload. What was
pending is promoted even if the extension turns out too long to be written. -/
def extendVote (v : Validator σ) (height : Height) : Action σ (Except ExtendError Bytes) := do
  let txs := (← Action.mempool).pendingTxs
  let g ← v.gatherAll height txs {}
  match (VoteExtension.mk height g.bids g.extraInfo).write with
  | .error reason => return .error (.unwritable reason)
  | .ok payload =>
      Action.publish (.validator
        (.extendedVote height g.bids.length g.extraInfo.keys g.promoted))
      return .ok payload

/-- What the vote for `height` carries: the payload of its extension, or nothing if there is none. -/
def extend (v : Validator σ) (height : Height) : Action σ Bytes := do
  match ← v.extendVote height with
  | .ok payload => return payload
  | .error _ => return []

end BidQuorum.Validator
