import BidQuorum.Proofs.Delivery

set_option autoImplicit false

/-! # Who hears of the mempool

A mempool reports to a single receiver, although several apps may work on it. Whoever is started takes
the place, and whoever is stopped leaves it empty, even when it was another's. So an app hears of the
mempool from its own start until another app is started or stopped (`heard_until_another_moves`), and
an app that has just been started may be silenced by one that is stopped (`silenced_by_another_stop`). -/

namespace BidQuorum

namespace Hub

/-! ## Moves -/

/-- What may happen at a hub. -/
inductive Move where
  | start (app : String) (handlers : Handlers)
  | stop (app : String)
  /-- The worker of an app's bus takes a turn. -/
  | turn (app : String)
  /-- The mempool is called. -/
  | call (c : PoolCall)

namespace Move

def apply (h : Hub) : Move → Hub
  | start app handlers => h.start app handlers
  | stop app => (h.stop app).1
  | turn app => h.step app
  | call c => (h.run none () c.run).2.2

/-- The events that come up in the move: that of the call, if it succeeds. -/
def events (h : Hub) : Move → List Event
  | call c =>
      match c.change h.mempool with
      | .error _ => []
      | .ok r => [.pool r.event]
  | start .. | stop _ | turn _ => []

/-- The events that come up in moves that are made one after another. -/
def eventsAll : Hub → List Move → List Event
  | _, [] => []
  | h, m :: rest => m.events h ++ eventsAll (m.apply h) rest

/-- The app itself is neither started nor stopped. -/
def Spares (app : String) : Move → Prop
  | start other _ | stop other => other ≠ app
  | turn _ | call _ => True

/-- No app is started or stopped. -/
def isQuiet : Move → Bool
  | start .. | stop _ => false
  | turn _ | call _ => true

end Move

/-! ## The place of the receiver -/

variable {hub : Hub} {app : String} {handlers : Handlers} {heard : List Event} {m : Move}

theorem apply_call (hub : Hub) (c : PoolCall) :
    (Move.call c).apply hub =
      match c.change hub.mempool with
      | .error _ => hub
      | .ok r => (hub.withMempool r.mempool).publish none (.pool r.event) := by
  show hub.settle none ((c.run : Action Unit _) { mempool := hub.mempool, outside := () }).2 = _
  rw [PoolCall.run_eq_call, Action.call]
  cases c.change hub.mempool <;> rfl

theorem receiver_stop (hub : Hub) (app : String) : (hub.stop app).1.receiver = none := by
  rw [stop]
  dsimp only
  split <;> rfl

theorem receiver_apply_of_isQuiet (hquiet : m.isQuiet = true) :
    (m.apply hub).receiver = hub.receiver := by
  cases m with
  | start app handlers => cases hquiet
  | stop app => cases hquiet
  | turn app => exact receiver_step hub app
  | call c =>
      rw [apply_call]
      split
      · rfl
      · exact receiver_publish _ _ _

/-- If another app is started or stopped, an app does not have the place then. -/
theorem receiver_apply_of_not_isQuiet (hspares : m.Spares app) (hloud : m.isQuiet = false) :
    (m.apply hub).receiver ≠ some app := by
  cases m with
  | start other handlers =>
      show (if handlers.isEmpty then none else some other) ≠ some app
      split
      · nofun
      · exact fun h => hspares (Option.some.inj h)
  | stop other =>
      show (hub.stop other).1.receiver ≠ some app
      rw [receiver_stop]
      nofun
  | turn other => cases hloud
  | call c => cases hloud

/-- An app that is not started does not get the place. -/
theorem receiver_apply_ne (hspares : m.Spares app) (hne : hub.receiver ≠ some app) :
    (m.apply hub).receiver ≠ some app := by
  cases hquiet : m.isQuiet with
  | true => rwa [receiver_apply_of_isQuiet hquiet]
  | false => exact receiver_apply_of_not_isQuiet hspares hquiet

theorem Attends.deliver_ne (h : hub.Attends app handlers heard) {other : String} (hne : other ≠ app)
    (e : Event) : (hub.deliver other e).Attends app handlers heard := by
  rw [Hub.deliver]
  split
  · exact h
  · exact h.of_insert_ne hne rfl

/-- What a move means for the bus of an app: it gets the events of the mempool if the app is the
receiver, and nothing else. -/
theorem Attends.apply (h : hub.Attends app handlers heard) (hspares : m.Spares app) :
    (m.apply hub).Attends app handlers
      (heard ++ if hub.receiver = some app then m.events hub else []) := by
  cases m with
  | start other handlers =>
      rw [Move.events, ite_self, List.append_nil]
      exact h.of_insert_ne hspares rfl
  | stop other =>
      rw [Move.events, ite_self, List.append_nil, Move.apply, Hub.stop]
      dsimp only
      split
      · exact ⟨h.exists_bus⟩
      · exact h.of_insert_ne hspares rfl
  | turn other =>
      rw [Move.events, ite_self, List.append_nil]
      exact h.step other
  | call c =>
      rw [apply_call, Move.events]
      cases c.change hub.mempool with
      | error e =>
          rw [ite_self, List.append_nil]
          exact h
      | ok r =>
          have h := h.withMempool r.mempool
          have htarget : (hub.withMempool r.mempool).target none (.pool r.event) = hub.receiver := rfl
          dsimp only
          rw [Hub.publish, htarget]
          cases hub.receiver with
          | none =>
              rw [if_neg (Option.some_ne_none app).symm, List.append_nil]
              exact h
          | some receiver =>
              by_cases happ : receiver = app
              · rw [happ, if_pos rfl]
                exact h.deliver _
              · rw [if_neg (mt Option.some.inj happ), List.append_nil]
                exact h.deliver_ne happ _

/-! ## Runs -/

/-- An app without the place hears of nothing. -/
theorem Attends.applyAll_of_receiver_ne (h : hub.Attends app handlers heard)
    (hne : hub.receiver ≠ some app) {moves : List Move} (hspares : ∀ m ∈ moves, m.Spares app) :
    (moves.foldl Move.apply hub).Attends app handlers heard := by
  induction moves generalizing hub with
  | nil => exact h
  | cons m rest ih =>
      obtain ⟨hm, hrest⟩ := List.forall_mem_cons.1 hspares
      have happly := h.apply hm
      rw [if_neg hne, List.append_nil] at happly
      exact ih happly (receiver_apply_ne hm hne) hrest

/-- An app with the place hears of all that happens to the mempool, until an app is started or
stopped. -/
theorem Attends.applyAll (h : hub.Attends app handlers heard) (hreceiver : hub.receiver = some app)
    {moves : List Move} (hspares : ∀ m ∈ moves, m.Spares app) :
    (moves.foldl Move.apply hub).Attends app handlers
      (heard ++ Move.eventsAll hub (moves.takeWhile Move.isQuiet)) := by
  induction moves generalizing hub heard with
  | nil =>
      rw [List.takeWhile_nil, Move.eventsAll, List.append_nil]
      exact h
  | cons m rest ih =>
      obtain ⟨hm, hrest⟩ := List.forall_mem_cons.1 hspares
      have happly := h.apply hm
      rw [if_pos hreceiver] at happly
      cases hquiet : m.isQuiet with
      | true =>
          rw [List.takeWhile_cons_of_pos hquiet, Move.eventsAll, ← List.append_assoc]
          exact ih happly ((receiver_apply_of_isQuiet hquiet).trans hreceiver) hrest
      | false =>
          have hnothing : m.events hub = [] := by
            cases m with
            | start | stop => rfl
            | turn | call => cases hquiet
          rw [hnothing] at happly
          rw [List.takeWhile_cons_of_neg (Bool.eq_false_iff.1 hquiet)]
          exact happly.applyAll_of_receiver_ne (receiver_apply_of_not_isQuiet hm hquiet) hrest

end Hub

/-- **An app hears of the mempool until another app is started or stopped.** Let an app that has a use
for events be started, and then let anything happen but that it is started again or stopped itself. Its
bus gets the events of the calls that succeed, all of them and in order, up to the first start or stop of
another app; from then on it gets none. -/
theorem heard_until_another_moves (hub : Hub) {app : String} {handlers : Handlers}
    (huse : handlers.isEmpty = false) {moves : List Hub.Move} (hspares : ∀ m ∈ moves, m.Spares app) :
    (moves.foldl Hub.Move.apply (hub.start app handlers)).Attends app handlers
      (Hub.Move.eventsAll (hub.start app handlers) (moves.takeWhile Hub.Move.isQuiet)) := by
  have hreceiver : (hub.start app handlers).receiver = some app := by
    rw [Hub.start, huse]
    rfl
  exact (Hub.Attends.start hub app handlers).applyAll hreceiver hspares

/-- Every event is logged, and nothing else is done. -/
def Handlers.onlyLog : Handlers := ⟨true, fun _ => none⟩

/-- An app was started last. Of two transactions that are inserted, with another app stopped in between,
its bus gets the first only. -/
theorem heard_of_first_insertion :
    let hub := ({} : Hub).start "a" .onlyLog
    let moves : List Hub.Move :=
      [.call (.insert signedBid), .turn "b", .stop "a", .call (.insert signedBid)]
    Handlers.onlyLog.isEmpty = false ∧ (∀ m ∈ moves, m.Spares "b") ∧
      ∃ e : Event, e.kind = .insertTx ∧
        (moves.foldl Hub.Move.apply (hub.start "b" .onlyLog)).Attends "b" .onlyLog [e] := by
  intro hub moves
  have hne : "a" ≠ "b" := by decide
  have hspares : ∀ m ∈ moves, m.Spares "b" := by
    simp only [moves, List.forall_mem_cons]
    exact ⟨trivial, trivial, hne, trivial, nofun⟩
  have huse : Handlers.onlyLog.isEmpty = false := rfl
  have hattends := heard_until_another_moves hub huse hspares
  have hkinds : (Hub.Move.eventsAll (hub.start "b" .onlyLog)
      (moves.takeWhile Hub.Move.isQuiet)).map Event.kind = [.insertTx] := by
    decide +kernel
  obtain ⟨e, he, hkind⟩ := List.map_eq_singleton_iff.1 hkinds
  rw [he] at hattends
  exact ⟨huse, hspares, e, hkind, hattends⟩

/-- An app that was started last is silenced when another is stopped: a transaction is inserted, and the
app's bus gets nothing. -/
theorem silenced_by_another_stop :
    let both := (({} : Hub).start "a" .onlyLog).start "b" .onlyLog
    let done := (both.stop "a").1.run none () (PoolCall.insert signedBid).run
    done.1 = .ok signedBid.hash ∧
      (done.2.2.buses.find? "b").map (fun bus => (bus.queue, bus.deliveries)) = some ([], []) := by
  decide +kernel

end BidQuorum
