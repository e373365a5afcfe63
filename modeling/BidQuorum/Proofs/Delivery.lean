import BidQuorum.Proofs.Observation
import BidQuorum.Proofs.Worker

set_option autoImplicit false

/-! # Every event is handled once, in order

While an app is the only one that is started on its mempool, its bus gets all events: those of its
validator and those of the mempool. Whatever work is done, and whatever turns the workers take
meanwhile, the bus follows exactly the events that the same work publishes at a site
(`Program.Attended.serves`). So when the app is stopped every event has been handled once and in order,
unless a handler has panicked (`events_handled_once_in_order`). -/

namespace BidQuorum

variable {σ α : Type} {app : String} {handlers : Handlers} {events : List Event}

/-! ## Apps that have no use for events -/

namespace Handlers

theorem handler?_of_isEmpty (hempty : handlers.isEmpty = true) (kind : EventKind) :
    handlers.handler? kind = none := by
  rw [isEmpty, Bool.and_eq_true, List.all_eq_true] at hempty
  exact Option.isNone_iff_eq_none.1 (hempty.2 kind (by cases kind <;> decide))

theorem allReturn_of_isEmpty (hempty : handlers.isEmpty = true) (events : List Event) :
    handlers.AllReturn events := by
  intro before e after _ handler hsome
  cases (handler?_of_isEmpty hempty e.kind).symm.trans hsome

theorem due_of_isEmpty (hempty : handlers.isEmpty = true) (e : Event) : handlers.due e = [] := by
  have hsilent := hempty
  rw [isEmpty, Bool.and_eq_true, Bool.not_eq_true'] at hsilent
  rw [due, hsilent.1, handler?_of_isEmpty hempty]
  rfl

end Handlers

/-- What comes up makes no difference to an app that has no use for events. -/
theorem Bus.Concluded.of_isEmpty {b : Bus} {heard : List Event} (hb : b.Concluded handlers heard)
    (hempty : handlers.isEmpty = true) (events : List Event) : b.Concluded handlers events := by
  obtain ⟨hserved, hphase⟩ := hb.of_allReturn (Handlers.allReturn_of_isEmpty hempty heard)
  have hnothing (events : List Event) : events.flatMap handlers.due = [] :=
    List.flatMap_eq_nil_iff.2 fun e _ => Handlers.due_of_isEmpty hempty e
  refine ⟨fun _ => ⟨Bus.hasServed ?_, hphase⟩, fun before e after hsplit hpanics => ?_⟩
  · rw [hserved.deliveries_eq, hnothing, hnothing]
  · exact absurd (Handlers.allReturn_of_isEmpty hempty events before e after hsplit) hpanics.panics

/-! ## The bus of an app -/

namespace Hub

variable {hub : Hub} {heard : List Event}

@[simp] theorem receiver_step (h : Hub) (app : String) : (h.step app).receiver = h.receiver := by
  rw [step]
  split <;> rfl

@[simp] theorem receiver_publish (h : Hub) (app : Option String) (e : Event) :
    (h.publish app e).receiver = h.receiver := by
  rw [publish]
  split
  · rfl
  · rw [deliver]
    split <;> rfl

/-- The bus of an app, started with the handlers and not told to stop yet, follows the events that it
has got. -/
structure Attends (hub : Hub) (app : String) (handlers : Handlers) (heard : List Event) : Prop where
  exists_bus : ∃ bus, hub.buses.find? app = some bus ∧ bus.stopping = false ∧
    bus.Follows handlers heard

namespace Attends

theorem start (hub : Hub) (app : String) (handlers : Handlers) :
    (hub.start app handlers).Attends app handlers [] := by
  refine ⟨Bus.start handlers, ?_, rfl, Bus.follows_start handlers⟩
  rw [Hub.start, TextMap.find?_insert, if_pos rfl]

theorem withMempool (h : hub.Attends app handlers heard) (m : Mempool) :
    (hub.withMempool m).Attends app handlers heard := ⟨h.exists_bus⟩

/-- Only the app's own bus matters. -/
theorem of_insert_ne (h : hub.Attends app handlers heard) {hub' : Hub} {other : String} {bus : Bus}
    (hne : other ≠ app) (hbuses : hub'.buses = hub.buses.insert other bus) :
    hub'.Attends app handlers heard := by
  obtain ⟨own, hown, hopen, hfollows⟩ := h
  refine ⟨own, ?_, hopen, hfollows⟩
  rw [hbuses, TextMap.find?_insert, if_neg hne.symm, hown]

theorem step (h : hub.Attends app handlers heard) (other : String) :
    (hub.step other).Attends app handlers heard := by
  rw [Hub.step]
  cases hbus : hub.buses.find? other with
  | none => exact h
  | some bus =>
      by_cases hother : other = app
      · subst hother
        obtain ⟨own, hown, hopen, hfollows⟩ := h
        cases hown.symm.trans hbus
        refine ⟨bus.step, ?_, ?_, hfollows.step⟩
        · rw [TextMap.find?_insert, if_pos rfl]
        · rwa [Bus.stopping_step]
      · exact h.of_insert_ne hother rfl

theorem deliver (h : hub.Attends app handlers heard) (e : Event) :
    (hub.deliver app e).Attends app handlers (heard ++ [e]) := by
  obtain ⟨bus, hbus, hopen, hfollows⟩ := h
  rw [Hub.deliver, hbus]
  refine ⟨bus.publish e, ?_, ?_, hfollows.publish hopen e⟩
  · rw [TextMap.find?_insert, if_pos rfl]
  · rwa [Bus.stopping_publish]

end Attends

/-- The hub serves an app, started with the handlers, for which these events came up: the app is the
receiver of the mempool, and its bus follows the events. An app that has no use for events need not get
them. -/
structure Serves (hub : Hub) (app : String) (handlers : Handlers) (events : List Event) : Prop where
  receiver_eq : hub.receiver = if handlers.isEmpty then none else some app
  attends : ∃ heard, hub.Attends app handlers heard ∧ (handlers.isEmpty = false → heard = events)

namespace Serves

theorem start (hub : Hub) (app : String) (handlers : Handlers) :
    (hub.start app handlers).Serves app handlers [] :=
  ⟨rfl, [], .start hub app handlers, fun _ => rfl⟩

theorem withMempool (h : hub.Serves app handlers events) (m : Mempool) :
    (hub.withMempool m).Serves app handlers events := by
  obtain ⟨hreceiver, heard, hattends, hheard⟩ := h
  exact ⟨hreceiver, heard, hattends.withMempool m, hheard⟩

theorem turns {hub' : Hub} (h : hub.Serves app handlers events) (happened : hub.Turns hub') :
    hub'.Serves app handlers events := by
  induction happened with
  | nothing => exact h
  | turn _ other ih =>
      obtain ⟨hreceiver, heard, hattends, hheard⟩ := ih
      exact ⟨(receiver_step _ other).trans hreceiver, heard, hattends.step other, hheard⟩

/-- An event that comes up gets to the bus of the app, if the app has any use for events. -/
theorem publish (h : hub.Serves app handlers events) (e : Event) :
    (hub.publish (some app) e).Serves app handlers (events ++ [e]) := by
  obtain ⟨hreceiver, heard, hattends, hheard⟩ := h
  have htarget : hub.target (some app) e = some app ∨
      handlers.isEmpty = true ∧ hub.target (some app) e = none := by
    cases e with
    | validator event => exact .inl rfl
    | pool event =>
        rw [target, hreceiver]
        cases handlers.isEmpty with
        | false => exact .inl rfl
        | true => exact .inr ⟨rfl, rfl⟩
  refine ⟨(receiver_publish _ _ e).trans hreceiver, ?_⟩
  rw [Hub.publish]
  rcases htarget with htarget | ⟨hempty, htarget⟩
  · rw [htarget]
    exact ⟨heard ++ [e], hattends.deliver e, fun huse => congrArg (· ++ [e]) (hheard huse)⟩
  · rw [htarget]
    refine ⟨heard, hattends, fun huse => ?_⟩
    rw [huse] at hempty
    cases hempty

end Serves

end Hub

/-- During work for the app its bus follows all events that come up. -/
theorem Program.Attended.serves {p : Program σ α} {w w' : Scene σ} {a : α}
    (hrun : p.Attended (some app) w a w') {s : Site σ} (hs : w.Shows s)
    (hserves : w.hub.Serves app handlers s.events) :
    w'.hub.Serves app handlers (p.run s).2.events := by
  induction hrun generalizing s with
  | turns happened _ ih =>
      exact ih ⟨hs.mempool_eq.trans happened.meanwhile.mempool_eq.symm, hs.outside_eq⟩
        (hserves.turns happened)
  | pure a w => exact hserves
  | bind run₁ _ ih₁ ih₂ =>
      obtain ⟨rfl, hs₂⟩ := run₁.lives.shows hs
      exact ih₂ hs₂ (ih₁ hs hserves)
  | mempool w => exact hserves
  | call_error change =>
      rw [run, PoolCall.run_eq_call, Action.call, hs.mempool_eq, change]
      exact hserves
  | call_ok change happened =>
      rw [run, PoolCall.run_eq_call, Action.call, hs.mempool_eq, change]
      exact ((hserves.withMempool _).turns happened).publish _
  | outside f w => exact hserves
  | publish e w => exact hserves.publish (.validator e)
  | report records w => exact hserves

/-! ## From start to stop -/

/-- However the worker goes on, at its end it has concluded its work on the events. -/
theorem Hub.Serves.concluded {hub : Hub} (h : hub.Serves app handlers events) :
    ∃ bus, hub.buses.find? app = some bus ∧ ∀ early late : Nat,
      (Bus.step^[late] (Bus.step^[early] bus).signal).phase.isOver = true →
        (Bus.step^[late] (Bus.step^[early] bus).signal).Concluded handlers events := by
  obtain ⟨-, heard, ⟨bus, hbus, -, hfollows⟩, hheard⟩ := h
  refine ⟨bus, hbus, fun early late hover => ?_⟩
  have hconcluded := ((hfollows.turns early).signal.turns late).concluded hover
  cases hempty : handlers.isEmpty with
  | false => exact hheard hempty ▸ hconcluded
  | true => exact hconcluded.of_isEmpty hempty events

/-- **Every event is handled once, in order.** Let an app be started with any handlers, let work be done
(tasks, one after another, are such work by `Task.orderly_runAll`), and let the app be stopped, while no
other app is started or stopped. Wherever its worker has come by then, and however many turns it takes
before the signal and after it: within two turns it comes to its end, and then it has served exactly the
events of the work, one after another, or those up to one whose handler has panicked. -/
theorem events_handled_once_in_order (hub : Hub) (app : String) (handlers : Handlers) (outside : σ)
    {p : Program σ α} {a : α} {w : Scene σ}
    (hrun : p.Attended (some app) ⟨hub.start app handlers, outside⟩ a w) :
    let events := (p.run { mempool := hub.mempool, outside }).2.events
    ∃ bus, w.hub.buses.find? app = some bus ∧
      (w.hub.stop app).1.buses.find? app = some (Bus.step^[2] bus.signal) ∧
      ∀ early : Nat,
        let told := (Bus.step^[early] bus).signal
        (Bus.step^[2] told).phase.isOver = true ∧
        ∀ late : Nat, (Bus.step^[late] told).phase.isOver = true →
          (Bus.step^[late] told).Concluded handlers events := by
  have hserves := hrun.serves (s := { mempool := hub.mempool, outside }) ⟨rfl, rfl⟩
    (.start hub app handlers)
  obtain ⟨bus, hbus, hconcluded⟩ := hserves.concluded
  refine ⟨bus, hbus, ?_, fun early => ⟨Bus.isOver_step_step rfl, hconcluded early⟩⟩
  have hstop : (w.hub.stop app).1.buses = w.hub.buses.insert app bus.close := by
    rw [Hub.stop]
    dsimp only
    rw [hbus]
  rw [hstop, TextMap.find?_insert, if_pos rfl]
  rfl

/-- Four events come up, all of them are logged, and a handler that is given every second of them panics
the second time. The last event is lost, and so is its log line. -/
theorem served_up_to_panic :
    let tasks : List (Task Unit) :=
      [.verify {} [], .process {} ⟨3⟩ [], .verify {} [], .process {} ⟨3⟩ []]
    let verified := Event.validator (.verifiedExtension none .reject)
    let processed := Event.validator (.processedProposal 0 .accept)
    let handlers : Handlers := ⟨true, fun kind => if kind = .verifyVoteExtension then
      some fun before _ => if before = [] then .returns else .panics else none⟩
    ∃ (p : Program Unit (List Answer)) (answers : List Answer) (w : Scene Unit),
      p.run = Task.runAll tasks ∧
      p.Attended (some "app") ⟨({} : Hub).start "app" handlers, ()⟩ answers w ∧
      ∃ bus, w.hub.buses.find? "app" = some bus ∧ ∀ early : Nat,
        let closed := Bus.step^[2] (Bus.step^[early] bus).signal
        closed.phase = .panicked ∧ closed.handled = [verified, verified] ∧
          closed.deliveries = [.logged verified, .handled verified, .logged processed,
            .logged verified, .handled verified] := by
  intro tasks verified processed handlers
  have hvalidator : ({} : Validator Unit).Orderly := ⟨nofun, nofun⟩
  have htasks : ∀ t ∈ tasks, t.Orderly := by
    simp only [tasks, List.forall_mem_cons]
    exact ⟨hvalidator, hvalidator, hvalidator, hvalidator, nofun⟩
  have hevents : (Task.runAll tasks { mempool := ({} : Hub).mempool, outside := () }).2.events
      = [verified, processed, verified, processed] := by decide +kernel
  have hcalm : handlers.AllReturn [verified, processed] := by
    refine Handlers.allReturn_snoc.2 ⟨Handlers.allReturn_snoc.2 ⟨Handlers.allReturn_nil, ?_⟩, ?_⟩
    · rintro _ ⟨⟩
      rfl
    · nofun
  have hpanics : handlers.PanicsAt [verified, processed] verified :=
    ⟨hcalm, fun hreturns => nomatch hreturns _ rfl⟩
  obtain ⟨p, hp⟩ := Task.orderly_runAll htasks
  have hrun := p.attended_run (some "app") ⟨({} : Hub).start "app" handlers, ()⟩
  refine ⟨p, _, _, hp, hrun, ?_⟩
  obtain ⟨bus, hbus, -, hclosed⟩ := events_handled_once_in_order {} "app" handlers () hrun
  rw [hp] at hclosed
  refine ⟨bus, hbus, fun early => ?_⟩
  obtain ⟨hover, hlate⟩ := hclosed early
  obtain ⟨hserved, hphase⟩ :=
    (hlate 2 hover).of_panicsAt [verified, processed] verified [processed] hevents hpanics
  exact ⟨hphase, Bus.handled_eq hserved.deliveries_eq, hserved.deliveries_eq⟩

end BidQuorum
