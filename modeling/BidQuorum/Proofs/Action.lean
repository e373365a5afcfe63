import BidQuorum.Validator.Extend
import BidQuorum.Validator.Verify
import BidQuorum.Validator.Propose

set_option autoImplicit false

/-! # Properties of work

Validators do their work step by step: they look at the mempool, promote transactions, report, and ask
the modules plugged into them. A property that passes from the parts of a piece of work to the whole
(`Action.Composable`) therefore holds of all that a validator does, if it holds of what its modules do.
To ask the modules in turn takes less than that: nothing is published between one question and the next
(`Action.Sequential`).

One such property is to leave the mempool alone: of all the work that validators do, only promoting
touches it, provided that their modules do not call it themselves. -/

namespace BidQuorum

variable {σ α β : Type}

/-! ## Running an action -/

namespace Action

@[simp] theorem pure_apply (a : α) (s : Site σ) : (pure a : Action σ α) s = (a, s) := rfl

@[simp] theorem bind_apply (a : Action σ α) (f : α → Action σ β) (s : Site σ) :
    (a >>= f) s = f (a s).1 (a s).2 := rfl

/-! ## Composition -/

/-- A property of work that passes from the parts to the whole, and that logging has. -/
structure Sequential (P : ∀ {α : Type}, Action σ α → Prop) : Prop where
  pure : ∀ {α : Type} (a : α), P (pure a : Action σ α)
  bind : ∀ {α β : Type} {a : Action σ α} {f : α → Action σ β}, P a → (∀ x, P (f x)) → P (a >>= f)
  report : ∀ records : List LogRecord, P (Action.report records : Action σ Unit)

/-- A property of work that passes from the parts to the whole, and that looking at the mempool and
reporting have. -/
structure Composable (P : ∀ {α : Type}, Action σ α → Prop) : Prop extends Sequential P where
  mempool : P (Action.mempool : Action σ Mempool)
  publishAll : ∀ events : List ValidatorEvent,
    P (Action.publishAll (events.map .validator) : Action σ Unit)

namespace Sequential

open BidQuorum.Validator

variable {P : ∀ {α : Type}, Action σ α → Prop} {v : Validator σ}

theorem offer (hP : Sequential P) {subscribers : List (String × Subscriber σ)}
    (h : ∀ x ∈ subscribers, ∀ height message, P (x.2.extend height message)) (height : Height)
    (message : ForeignMessage) (info : TextMap Bytes) :
    P (offer height message subscribers info) := by
  induction subscribers generalizing info with
  | nil => exact hP.pure _
  | cons x rest ih =>
      obtain ⟨key, subscriber⟩ := x
      have hrest := ih fun y hy => h y (List.mem_cons_of_mem _ hy)
      refine hP.bind (h _ List.mem_cons_self height message) fun answer => ?_
      cases answer with
      | ok bytes => exact hrest _
      | error reason => exact hP.bind (hP.report _) fun _ => hrest _

theorem gatherMessages (hP : Sequential P)
    (h : ∀ x ∈ v.subscribers.entries, ∀ height message, P (x.2.extend height message))
    (height : Height) (messages : List Message) (g : Gathered) :
    P (v.gatherMessages height messages g) := by
  induction messages generalizing g with
  | nil => exact hP.pure _
  | cons m rest ih =>
      cases m with
      | bid bid =>
          rw [Validator.gatherMessages]
          split
          · exact ih _
          · exact hP.bind (hP.report _) fun _ => ih _
      | foreign message => exact hP.bind (hP.offer h height message _) fun _ => ih _

theorem verifyInfo (hP : Sequential P)
    (h : ∀ x ∈ v.subscribers.entries, ∀ info, P (x.2.verify info))
    (entries : List (String × Bytes)) : P (v.verifyInfo entries) := by
  induction entries with
  | nil => exact hP.pure _
  | cons x rest ih =>
      obtain ⟨key, info⟩ := x
      unfold Validator.verifyInfo
      split
      · exact hP.bind (hP.report _) fun _ => hP.pure _
      · next subscriber hfind =>
          have hmem := (TextMap.find?_eq_some_iff _).1 hfind
          refine hP.bind (h _ hmem info) fun answer => ?_
          split
          · exact ih
          · exact hP.pure _
          · exact hP.bind (hP.report _) fun _ => hP.pure _

end Sequential

namespace Composable

open BidQuorum.Validator

variable {P : ∀ {α : Type}, Action σ α → Prop} {v : Validator σ}

theorem publish (hP : Composable P) (e : ValidatorEvent) :
    P (Action.publish (.validator e) : Action σ Unit) := hP.publishAll [e]

theorem gatherAll (hP : Composable P)
    (h : ∀ x ∈ v.subscribers.entries, ∀ height message, P (x.2.extend height message))
    (hpromote : ∀ tx, P (promoteTx tx : Action σ (Except MempoolError TxHash))) (height : Height)
    (txs : List Transaction) (g : Gathered) : P (v.gatherAll height txs g) := by
  induction txs generalizing g with
  | nil => exact hP.pure _
  | cons tx rest ih =>
      refine hP.bind (hP.gatherMessages h height _ _) fun g => hP.bind (hpromote tx) fun answer => ?_
      cases answer with
      | ok hash => exact ih _
      | error e => exact hP.bind (hP.report _) fun _ => ih _

theorem extendVote (hP : Composable P)
    (h : ∀ x ∈ v.subscribers.entries, ∀ height message, P (x.2.extend height message))
    (hpromote : ∀ tx, P (promoteTx tx : Action σ (Except MempoolError TxHash))) (height : Height) :
    P (v.extendVote height) := by
  refine hP.bind hP.mempool fun _ => hP.bind (hP.gatherAll h hpromote height _ _) fun _ => ?_
  split
  · exact hP.pure _
  · exact hP.bind (hP.publish _) fun _ => hP.pure _

theorem verify (hP : Composable P)
    (h : ∀ x ∈ v.subscribers.entries, ∀ info, P (x.2.verify info)) (payload : Bytes) :
    P (v.verify payload) := by
  unfold Validator.verify
  split
  · exact hP.bind (hP.report _) fun _ => hP.bind (hP.publish _) fun _ => hP.pure _
  · exact hP.bind (hP.verifyInfo h _) fun _ => hP.bind (hP.publish _) fun _ => hP.pure _

theorem proposedTxs (hP : Composable P)
    (h : ∀ build, v.builder = some build → v.settings.runProposalBuilder = true →
      ∀ height txs, P (build height txs)) (height : Height) : P (v.proposedTxs height) := by
  refine hP.bind hP.mempool fun m => ?_
  cases hbuilder : v.builder with
  | none => exact hP.pure _
  | some build =>
      dsimp only
      split
      · next hrun =>
          refine hP.bind (h build hbuilder hrun height _) fun answer => ?_
          cases answer with
          | ok txs => exact hP.pure _
          | error reason => exact hP.bind (hP.report _) fun _ => hP.pure _
      · exact hP.pure _

theorem specialTx (hP : Composable P) (height : Height) (votes : List ExtendedVote) :
    P (v.specialTx height votes) := by
  rw [Validator.specialTx]
  split
  · dsimp only
    split
    · exact hP.pure _
    · exact hP.bind (hP.report _) fun _ => hP.pure _
  · exact hP.pure _

theorem prepare (hP : Composable P)
    (h : ∀ build, v.builder = some build → v.settings.runProposalBuilder = true →
      ∀ height txs, P (build height txs)) (height : Height) (votes : List ExtendedVote) :
    P (v.prepare height votes) := by
  refine hP.bind (hP.specialTx height votes) fun special =>
    hP.bind (hP.proposedTxs h height) fun chosen => ?_
  have hskipped := fun items : List SkippedItem =>
    hP.publishAll (items.map (.skippedItem height))
  simp only [List.map_map] at hskipped
  exact hP.bind (hskipped _) fun _ => hP.bind (hP.publish _) fun _ => hP.pure _

theorem process (hP : Composable P) (height : Height) (txs : List Bytes) :
    P (v.process height txs) :=
  hP.bind (hP.report _) fun _ => hP.bind (hP.publish _) fun _ => hP.pure _

end Composable

/-! ## Leaving the mempool alone -/

/-- The mempool after the action is the one before it. -/
def LeavesMempool (a : Action σ α) : Prop := ∀ s, (a s).2.mempool = s.mempool

theorem composable_leavesMempool : Composable (@LeavesMempool σ) where
  pure _ _ := rfl
  bind ha hf s := by rw [bind_apply, hf, ha]
  mempool _ := rfl
  publishAll _ _ := rfl
  report _ _ := rfl

/-- The action neither touches the mempool nor publishes anything. -/
def Discreet (a : Action σ α) : Prop :=
  ∀ s, (a s).2.mempool = s.mempool ∧ (a s).2.events = s.events

theorem sequential_discreet : Sequential (@Discreet σ) where
  pure _ _ := ⟨rfl, rfl⟩
  bind ha hf s := by simp [(hf _ _).1, (hf _ _).2, (ha s).1, (ha s).2]
  report _ _ := ⟨rfl, rfl⟩

end Action

open BidQuorum.Action

/-- A module that never calls the mempool. -/
structure Subscriber.LeavesMempool (m : Subscriber σ) : Prop where
  extend : ∀ height message, (m.extend height message).LeavesMempool
  verify : ∀ info, (m.verify info).LeavesMempool

namespace Validator

variable {v : Validator σ}

/-- None of the modules that take part in vote extensions calls the mempool. -/
def ModulesLeaveMempool (v : Validator σ) : Prop :=
  ∀ x ∈ v.subscribers.entries, x.2.LeavesMempool

/-- None of the modules touches the mempool or publishes anything when it is to contribute. -/
def ContributesDiscreetly (v : Validator σ) : Prop :=
  ∀ x ∈ v.subscribers.entries, ∀ height message, (x.2.extend height message).Discreet

theorem leavesMempool_verify (hv : v.ModulesLeaveMempool) (payload : Bytes) :
    (v.verify payload).LeavesMempool :=
  composable_leavesMempool.verify (fun x hx => (hv x hx).verify) payload

/-- No proposal builder is used. -/
def WithoutBuilder (v : Validator σ) : Prop :=
  v.builder = none ∨ v.settings.runProposalBuilder = false

/-- Without a builder the ready transactions are proposed as they are. -/
theorem proposedTxs_of_withoutBuilder (hv : v.WithoutBuilder) (height : Height) (s : Site σ) :
    v.proposedTxs height s = ((s.mempool.readyTxs, []), s) := by
  unfold proposedTxs
  rcases hv with hv | hv
  · rw [hv]
    rfl
  · cases v.builder with
    | none => rfl
    | some build => rw [hv]; rfl

theorem leavesMempool_prepare (hv : v.WithoutBuilder) (height : Height)
    (votes : List ExtendedVote) : (v.prepare height votes).LeavesMempool := by
  refine composable_leavesMempool.prepare (fun build hbuilder hrun => ?_) height votes
  rcases hv with hv | hv
  · rw [hv] at hbuilder
    cases hbuilder
  · rw [hv] at hrun
    cases hrun

theorem leavesMempool_process (height : Height) (txs : List Bytes) :
    (v.process height txs).LeavesMempool :=
  composable_leavesMempool.process height txs

end Validator

end BidQuorum
