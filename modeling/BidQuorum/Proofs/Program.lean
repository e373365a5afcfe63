import BidQuorum.Proofs.Reachable

set_option autoImplicit false

/-! # Work that keeps to the interface

Modules plugged into a validator act at its site as they like, but only through what the site offers: they
call the mempool and look at it, they report and log, and they change the state they keep outside. Such
work is written out as a `Program`, and an action is orderly if it is what some program does. Validators
themselves do nothing else, so all they do is orderly if their modules are (`Task.orderly_run`), and a
fact about all programs is a fact about every task. -/

namespace BidQuorum

variable {σ α β : Type}

/-! ## Programs -/

/-- Look at the state outside and change it. -/
def Action.outside (f : σ → α × σ) : Action σ α := fun s =>
  ((f s.outside).1, { s with outside := (f s.outside).2 })

/-- Work written out in terms of what a site offers. -/
inductive Program (σ : Type) : Type → Type 1 where
  | pure {α : Type} (a : α) : Program σ α
  | bind {α β : Type} (first : Program σ α) (next : α → Program σ β) : Program σ β
  /-- Look at the mempool. -/
  | mempool : Program σ Mempool
  /-- Call the mempool. -/
  | call (c : PoolCall) : Program σ (Except MempoolError TxHash)
  /-- Look at the state outside and change it. -/
  | outside {α : Type} (f : σ → α × σ) : Program σ α
  /-- Publish an event of the validator. -/
  | publish (e : ValidatorEvent) : Program σ Unit
  /-- Log. -/
  | report (records : List LogRecord) : Program σ Unit

namespace Program

/-- The program as an action. -/
def run {α : Type} : Program σ α → Action σ α
  | pure a => Pure.pure a
  | bind first next => first.run >>= fun x => (next x).run
  | mempool => Action.mempool
  | call c => c.run
  | outside f => Action.outside f
  | publish e => Action.publish (.validator e)
  | report records => Action.report records

/-- Publish several events, in order. -/
def publishAll : List ValidatorEvent → Program σ Unit
  | [] => pure ()
  | e :: rest => bind (publish e) fun _ => publishAll rest

theorem run_publishAll (events : List ValidatorEvent) :
    (publishAll events).run = (Action.publishAll (events.map .validator) : Action σ Unit) := by
  induction events with
  | nil =>
      funext s
      show ((), s) = ((), { s with events := s.events ++ [] })
      rw [List.append_nil]
  | cons e rest ih =>
      funext s
      rw [publishAll, run, Action.bind_apply, ih, List.map_cons]
      show ((), { s with events := s.events ++ [Event.validator e] ++ rest.map Event.validator })
        = ((), { s with events := s.events ++ Event.validator e :: rest.map Event.validator })
      rw [List.append_assoc, List.singleton_append]

/-- What calls keep, and what depends on the mempool and its events alone, is kept by programs. -/
theorem keeps {I : Site σ → Prop} (hcall : ∀ {s : Site σ} (c : PoolCall), I s → I (c.run s).2)
    (hother : ∀ {s s' : Site σ} (others : List ValidatorEvent), s'.mempool = s.mempool →
      s'.events = s.events ++ others.map .validator → I s → I s')
    (p : Program σ α) {s : Site σ} (hs : I s) : I (p.run s).2 := by
  induction p generalizing s with
  | pure a => exact hs
  | bind first next ihfirst ihnext => exact ihnext _ (ihfirst hs)
  | mempool => exact hs
  | call c => exact hcall c hs
  | outside f => exact hother (s := s) [] rfl (List.append_nil _).symm hs
  | publish e => exact hother (s := s) [e] rfl rfl hs
  | report records => exact hother (s := s) [] rfl (List.append_nil _).symm hs

end Program

/-! ## Orderly work -/

/-- The action does what some program does. -/
def Action.Orderly (a : Action σ α) : Prop := ∃ p : Program σ α, p.run = a

theorem Action.composable_orderly : Action.Composable (@Action.Orderly σ) where
  pure a := ⟨.pure a, rfl⟩
  bind := by
    rintro α β _ f ⟨p, rfl⟩ hf
    obtain ⟨next, hnext⟩ := Classical.axiomOfChoice hf
    exact ⟨.bind p next, by rw [Program.run]; exact congrArg _ (funext hnext)⟩
  mempool := ⟨.mempool, rfl⟩
  publishAll events := ⟨.publishAll events, Program.run_publishAll events⟩
  report records := ⟨.report records, rfl⟩

/-- A module that acts only through the interface of the site. -/
structure Subscriber.Orderly (m : Subscriber σ) : Prop where
  extend : ∀ height message, (m.extend height message).Orderly
  verify : ∀ info, (m.verify info).Orderly

/-- All modules of the validator act only through the interface of the site. -/
structure Validator.Orderly (v : Validator σ) : Prop where
  subscribers : ∀ x ∈ v.subscribers.entries, x.2.Orderly
  builder : ∀ build, v.builder = some build → ∀ height txs, (build height txs).Orderly

/-! ## Tasks -/

/-- What may be asked for at a site: a call of the mempool, or the work of a validator. -/
inductive Task (σ : Type) where
  | call (c : PoolCall)
  | extend (v : Validator σ) (height : Height)
  | verify (v : Validator σ) (payload : Bytes)
  | prepare (v : Validator σ) (height : Height) (votes : List ExtendedVote)
  | process (v : Validator σ) (height : Height) (txs : List Bytes)

/-- What comes of a task. -/
inductive Answer where
  | called (answer : Except MempoolError TxHash)
  | extended (payload : Except ExtendError Bytes)
  | verified (status : VerifyStatus)
  | prepared (proposal : PreparedProposal)
  | processed (status : ProposalStatus)

namespace Task

/-- The task, done. -/
def run : Task σ → Action σ Answer
  | call c => do return .called (← c.run)
  | extend v height => do return .extended (← v.extendVote height)
  | verify v payload => do return .verified (← v.verify payload)
  | prepare v height votes => do return .prepared (← v.prepare height votes)
  | process v height txs => do return .processed (← v.process height txs)

/-- Several tasks, one after another. -/
def runAll : List (Task σ) → Action σ (List Answer)
  | [] => return []
  | t :: rest => do
      let answer ← t.run
      return answer :: (← runAll rest)

/-- The modules that take part in the task are orderly. -/
def Orderly : Task σ → Prop
  | call _ => True
  | extend v _ | verify v _ | prepare v .. | process v .. => v.Orderly

/-- What is done with orderly modules is orderly. -/
theorem orderly_run {t : Task σ} (ht : t.Orderly) : t.run.Orderly := by
  have hP : Action.Composable (@Action.Orderly σ) := Action.composable_orderly
  have hanswer : ∀ {γ : Type} {a : Action σ γ} (f : γ → Answer), a.Orderly →
      (a >>= fun x => Pure.pure (f x)).Orderly := fun _ ha => hP.bind ha fun _ => hP.pure _
  cases t with
  | call c => exact hanswer _ ⟨.call c, rfl⟩
  | extend v height =>
      exact hanswer _ (hP.extendVote (fun x hx => (ht.subscribers x hx).extend)
        (fun tx => ⟨.call (.promote tx), rfl⟩) height)
  | verify v payload =>
      exact hanswer _ (hP.verify (fun x hx => (ht.subscribers x hx).verify) payload)
  | prepare v height votes =>
      exact hanswer _ (hP.prepare (fun build hbuild _ => ht.builder build hbuild) height votes)
  | process v height txs => exact hanswer _ (hP.process height txs)

theorem orderly_runAll {tasks : List (Task σ)} (h : ∀ t ∈ tasks, t.Orderly) :
    (runAll tasks).Orderly := by
  have hP : Action.Composable (@Action.Orderly σ) := Action.composable_orderly
  induction tasks with
  | nil => exact hP.pure _
  | cons t rest ih =>
      have hrest := ih fun u hu => h u (List.mem_cons_of_mem _ hu)
      exact hP.bind (orderly_run (h t List.mem_cons_self)) fun _ => hP.bind hrest fun _ => hP.pure _

end Task

end BidQuorum
