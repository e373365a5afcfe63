import Std.Data.TreeMap
import BidQuorum.Transaction

set_option autoImplicit false

/-! # Pools

A pool holds transactions in the order they came. Each gets the next sequence number, and the
entries are kept by that number, so that their order is the order of arrival. Beside them an index
leads from a transaction hash to the numbers of the entries with that hash, oldest first: taking a
transaction out does not search the pool. -/

namespace BidQuorum

/-- A transaction in a pool, with the signer and the hash it is found by. The priority is only
informative. -/
structure Entry where
  signer : Address
  priority : Nat
  hash : TxHash
  tx : Transaction
deriving DecidableEq

namespace Entry

/-- Whether this is an entry of the given signer and hash. -/
def isFor (signer : Address) (hash : TxHash) (e : Entry) : Bool :=
  e.signer == signer && e.hash == hash

/-- Two entries count as the same if they have the same signer and the same hash, whatever their
priority: a pending entry is the same as its promoted self. -/
def same (a b : Entry) : Bool := a.isFor b.signer b.hash

end Entry

/-- Entries in order of arrival, indexed by transaction hash. -/
structure Pool where
  /-- The sequence number of the next entry. -/
  nextSeq : Nat := 0
  entries : Std.TreeMap Nat Entry := ∅
  /-- The sequence numbers of the entries with a hash, oldest first. -/
  index : Std.TreeMap TxHash (List Nat) := ∅

namespace Pool

def empty : Pool := {}

/-- The entries in order of arrival. -/
def toList (p : Pool) : List Entry := p.entries.toList.map Prod.snd

def size (p : Pool) : Nat := p.entries.size

/-- The pool with one more entry at the back. -/
def push (p : Pool) (e : Entry) : Pool where
  nextSeq := p.nextSeq + 1
  entries := p.entries.insert p.nextSeq e
  index := p.index.insert e.hash (p.index.getD e.hash [] ++ [p.nextSeq])

/-- Whether the entry with this sequence number has the given signer. -/
def hasSigner (p : Pool) (signer : Address) (seq : Nat) : Bool :=
  match p.entries[seq]? with
  | none => false
  | some e => e.signer == signer

/-- The oldest entry of the given signer and hash, and the pool without it. -/
def take? (p : Pool) (signer : Address) (hash : TxHash) : Option (Entry × Pool) :=
  match p.index[hash]? with
  | none => none
  | some seqs =>
      match seqs.find? (p.hasSigner signer) with
      | none => none
      | some seq =>
          match p.entries[seq]? with
          | none => none
          | some e =>
              let rest := seqs.erase seq
              some (e, {
                nextSeq := p.nextSeq
                entries := p.entries.erase seq
                index := if rest.isEmpty then p.index.erase hash else p.index.insert hash rest })

end Pool

end BidQuorum
