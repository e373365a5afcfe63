import BidQuorum.Hub
import BidQuorum.Proofs.Program
import BidQuorum.Proofs.Witness

set_option autoImplicit false

/-! # Observers have no influence

Events are published while work goes on: in the middle of a task they reach the buses of apps, whose
workers handle them at their own pace, and apps are started and stopped meanwhile. Such a live run
(`Program.Lives`) can go in many ways. But whichever way it goes, it stays in step with the same work
done at a site where nobody listens, so the answers, the pools, and the state of the modules are always
the same (`observers_have_no_influence`). Running work first and publishing its events afterwards, as a
hub does, is one of the ways. -/

namespace BidQuorum

variable {σ α : Type}

/-! ## Sites without their observations -/

namespace Site

/-- The site as if nothing had been observed there yet. -/
def unobserved (s : Site σ) : Site σ := { mempool := s.mempool, outside := s.outside }

/-- The site, with what was observed at `earlier` in front of what was observed there. -/
def following (s earlier : Site σ) : Site σ :=
  { s with events := earlier.events ++ s.events, log := earlier.log ++ s.log }

theorem following_unobserved (s : Site σ) : s.unobserved.following s = s := by
  rw [following, unobserved, List.append_nil, List.append_nil]

theorem following_following (s t u : Site σ) :
    (u.following t).following s = u.following (t.following s) := by
  simp only [following, List.append_assoc]

end Site

/-- What a program does at a site does not depend on what has been observed there; its own
observations follow. -/
theorem Program.run_unobserved (p : Program σ α) (s : Site σ) :
    p.run s = ((p.run s.unobserved).1, (p.run s.unobserved).2.following s) := by
  induction p generalizing s with
  | pure a => exact congrArg (a, ·) s.following_unobserved.symm
  | bind first next ihfirst ihnext =>
      -- The second part starts behind what the first has observed, and this behind what had been
      -- observed before; to its work neither makes a difference.
      rw [run, Action.bind_apply, Action.bind_apply, ihfirst s]
      generalize first.run s.unobserved = r
      calc (next r.1).run (r.2.following s)
          = (((next r.1).run r.2.unobserved).1,
              ((next r.1).run r.2.unobserved).2.following (r.2.following s)) := ihnext _ _
        _ = (((next r.1).run r.2).1, ((next r.1).run r.2).2.following s) := by
              rw [ihnext r.1 r.2, Site.following_following]
  | mempool => exact congrArg (s.mempool, ·) s.following_unobserved.symm
  | call c =>
      rw [run, PoolCall.run_eq_call, Action.call, Action.call]
      cases hchange : c.change s.mempool with
      | error e =>
          simp only [Site.unobserved, hchange]
          exact congrArg (Except.error e, ·) s.following_unobserved.symm
      | ok r =>
          simp only [Site.unobserved, hchange, Site.following, List.nil_append, List.append_nil]
  | outside f =>
      simp only [run, Action.outside, Site.unobserved, Site.following, List.append_nil]
  | publish e =>
      show ((), { s with events := s.events ++ [Event.validator e] })
        = ((), { s with events := s.events ++ [Event.validator e], log := s.log ++ [] })
      rw [List.append_nil]
  | report records =>
      show ((), { s with log := s.log ++ records })
        = ((), { s with events := s.events ++ [], log := s.log ++ records })
      rw [List.append_nil]

/-! ## Hubs and mempools -/

namespace Hub

@[simp] theorem mempool_deliver (h : Hub) (app : String) (e : Event) :
    (h.deliver app e).mempool = h.mempool := by
  rw [deliver]
  split <;> rfl

@[simp] theorem mempool_publish (h : Hub) (app : Option String) (e : Event) :
    (h.publish app e).mempool = h.mempool := by
  rw [publish]
  split
  · rfl
  · exact h.mempool_deliver _ e

@[simp] theorem mempool_step (h : Hub) (app : String) : (h.step app).mempool = h.mempool := by
  rw [step]
  split <;> rfl

@[simp] theorem mempool_stop (h : Hub) (app : String) : (h.stop app).1.mempool = h.mempool := by
  rw [stop]
  dsimp only
  split <;> rfl

/-- What is done around a hub while others work: apps are started and stopped, and the workers of their
buses take turns, in any order. -/
inductive Meanwhile : Hub → Hub → Prop
  | nothing (h : Hub) : Meanwhile h h
  | start {g h : Hub} (before : Meanwhile g h) (app : String) (handlers : Handlers) :
      Meanwhile g (h.start app handlers)
  | turn {g h : Hub} (before : Meanwhile g h) (app : String) : Meanwhile g (h.step app)
  | stop {g h : Hub} (before : Meanwhile g h) (app : String) : Meanwhile g (h.stop app).1

theorem Meanwhile.mempool_eq {g h : Hub} (hmeanwhile : Meanwhile g h) : h.mempool = g.mempool := by
  induction hmeanwhile with
  | nothing => rfl
  | start before app handlers ih => exact ih
  | turn before app ih => exact (mempool_step _ app).trans ih
  | stop before app ih => exact (mempool_stop _ app).trans ih

/-- Nothing else happens than that workers take turns, in any order. -/
inductive Turns : Hub → Hub → Prop
  | nothing (h : Hub) : Turns h h
  | turn {g h : Hub} (before : Turns g h) (app : String) : Turns g (h.step app)

theorem Turns.meanwhile {g h : Hub} (hturns : Turns g h) : Meanwhile g h := by
  induction hturns with
  | nothing => exact .nothing _
  | turn before app ih => exact ih.turn app

/-- The hub with another mempool. -/
def withMempool (h : Hub) (m : Mempool) : Hub := { h with mempool := m }

/-- Publishing and changing the mempool do not get in each other's way. -/
theorem publish_withMempool (h : Hub) (m : Mempool) (app : Option String) (e : Event) :
    (h.withMempool m).publish app e = (h.publish app e).withMempool m := by
  have htarget : (h.withMempool m).target app e = h.target app e := by
    cases e <;> rfl
  rw [publish, publish, htarget]
  split
  · rfl
  · simp only [deliver, withMempool]
    split <;> rfl

theorem foldl_publish_withMempool (h : Hub) (m : Mempool) (app : Option String)
    (events : List Event) :
    events.foldl (publish app) (h.withMempool m) = (events.foldl (publish app) h).withMempool m := by
  induction events generalizing h with
  | nil => rfl
  | cons e rest ih => rw [List.foldl_cons, publish_withMempool, ih, List.foldl_cons]

theorem settle_eq (h : Hub) (app : Option String) (s : Site σ) :
    h.settle app s = (s.events.foldl (publish app) h).withMempool s.mempool :=
  foldl_publish_withMempool h s.mempool app s.events

theorem mempool_settle (h : Hub) (app : Option String) (s : Site σ) :
    (h.settle app s).mempool = s.mempool := by
  rw [settle_eq]
  rfl

/-- Work may be settled in two parts. -/
theorem settle_following (h : Hub) (app : Option String) (s t : Site σ) :
    h.settle app (t.following s) = (h.settle app s).settle app t := by
  rw [settle_eq h app s, settle_eq, settle_eq, foldl_publish_withMempool, Site.following,
    List.foldl_append]
  rfl

end Hub

/-! ## Settings that concern only the log -/

namespace Validator

variable {v : Validator σ} {b : Bool}

/-- The validator, set to log every event or not to. -/
def logging (v : Validator σ) (b : Bool) : Validator σ :=
  { v with settings := { v.settings with logEvents := b } }

theorem gatherMessages_logging (height : Height) (messages : List Message) (g : Gathered) :
    (v.logging b).gatherMessages height messages g = v.gatherMessages height messages g := by
  induction messages generalizing g with
  | nil => rfl
  | cons m rest ih =>
      cases m with
      | bid bid =>
          rw [gatherMessages, gatherMessages]
          cases bid.write with
          | ok bytes => exact ih _
          | error reason => simp only [ih]
      | foreign message => exact congrArg _ (funext fun _ => ih _)

theorem gatherAll_logging (height : Height) (txs : List Transaction) (g : Gathered) :
    (v.logging b).gatherAll height txs g = v.gatherAll height txs g := by
  induction txs generalizing g with
  | nil => rfl
  | cons tx rest ih => simp only [gatherAll, gatherMessages_logging, ih]

theorem verifyInfo_logging (entries : List (String × Bytes)) :
    (v.logging b).verifyInfo entries = v.verifyInfo entries := by
  induction entries with
  | nil => rfl
  | cons x rest ih =>
      rw [verifyInfo, verifyInfo, ih]
      rfl

end Validator

namespace Task

/-- The task, given to a validator that is set to log every event or not to. -/
def logging (b : Bool) : Task σ → Task σ
  | call c => call c
  | extend v height => extend (v.logging b) height
  | verify v payload => verify (v.logging b) payload
  | prepare v height votes => prepare (v.logging b) height votes
  | process v height txs => process (v.logging b) height txs

/-- The setting does not matter for the work. -/
theorem run_logging (b : Bool) (t : Task σ) : (t.logging b).run = t.run := by
  cases t with
  | call c => rfl
  | extend v height => simp only [logging, run, Validator.extendVote, Validator.gatherAll_logging]
  | verify v payload => simp only [logging, run, Validator.verify, Validator.verifyInfo_logging]
  | prepare v height votes => rfl
  | process v height txs => rfl

end Task

/-! ## Live runs -/

/-- A hub, and the state that modules keep outside. -/
structure Scene (σ : Type) where
  hub : Hub
  outside : σ

namespace Scene

/-- The scene as a site where nothing has been observed yet. -/
def site (w : Scene σ) : Site σ := { mempool := w.hub.mempool, outside := w.outside }

/-- A site has the same mempool and the same state outside. Whatever else it has are observations. -/
structure Shows (w : Scene σ) (s : Site σ) : Prop where
  mempool_eq : s.mempool = w.hub.mempool
  outside_eq : s.outside = w.outside

end Scene

/-- The live runs of a program in the work of `app`, or in work on the mempool alone: from one scene,
with an answer, to another. Every event is published on the spot, a change of the mempool before the
mempool is free again. Anything may happen to the hub before each piece of the work, and between a
change and its event. -/
inductive Program.Lives (app : Option String) :
    {α : Type} → Program σ α → Scene σ → α → Scene σ → Prop
  | meanwhile {α : Type} {p : Program σ α} {w : Scene σ} {hub : Hub} {a : α} {w' : Scene σ}
      (happened : w.hub.Meanwhile hub) (run : Lives app p { w with hub } a w') : Lives app p w a w'
  | pure {α : Type} (a : α) (w : Scene σ) : Lives app (.pure a) w a w
  | bind {α β : Type} {first : Program σ α} {next : α → Program σ β} {w₁ w₂ w₃ : Scene σ} {a : α}
      {b : β} (run₁ : Lives app first w₁ a w₂) (run₂ : Lives app (next a) w₂ b w₃) :
      Lives app (.bind first next) w₁ b w₃
  | mempool (w : Scene σ) : Lives app .mempool w w.hub.mempool w
  | call_error {c : PoolCall} {w : Scene σ} {e : MempoolError}
      (change : c.change w.hub.mempool = .error e) : Lives app (.call c) w (.error e) w
  | call_ok {c : PoolCall} {w : Scene σ} {r : Mempool.Change} {hub : Hub}
      (change : c.change w.hub.mempool = .ok r)
      (happened : (w.hub.withMempool r.mempool).Meanwhile hub) :
      Lives app (.call c) w (.ok r.event.hash) { w with hub := hub.publish app (.pool r.event) }
  | outside {α : Type} (f : σ → α × σ) (w : Scene σ) :
      Lives app (.outside f) w (f w.outside).1 { w with outside := (f w.outside).2 }
  | publish (e : ValidatorEvent) (w : Scene σ) :
      Lives app (.publish e) w () { w with hub := w.hub.publish app (.validator e) }
  | report (records : List LogRecord) (w : Scene σ) : Lives app (.report records) w () w

/-- The live runs of a program during which no app is started or stopped: before each piece of the work,
and between a change of the mempool and its event, workers take turns. -/
inductive Program.Attended (app : Option String) :
    {α : Type} → Program σ α → Scene σ → α → Scene σ → Prop
  | turns {α : Type} {p : Program σ α} {w : Scene σ} {hub : Hub} {a : α} {w' : Scene σ}
      (happened : w.hub.Turns hub) (run : Attended app p { w with hub } a w') : Attended app p w a w'
  | pure {α : Type} (a : α) (w : Scene σ) : Attended app (.pure a) w a w
  | bind {α β : Type} {first : Program σ α} {next : α → Program σ β} {w₁ w₂ w₃ : Scene σ} {a : α}
      {b : β} (run₁ : Attended app first w₁ a w₂) (run₂ : Attended app (next a) w₂ b w₃) :
      Attended app (.bind first next) w₁ b w₃
  | mempool (w : Scene σ) : Attended app .mempool w w.hub.mempool w
  | call_error {c : PoolCall} {w : Scene σ} {e : MempoolError}
      (change : c.change w.hub.mempool = .error e) : Attended app (.call c) w (.error e) w
  | call_ok {c : PoolCall} {w : Scene σ} {r : Mempool.Change} {hub : Hub}
      (change : c.change w.hub.mempool = .ok r)
      (happened : (w.hub.withMempool r.mempool).Turns hub) :
      Attended app (.call c) w (.ok r.event.hash) { w with hub := hub.publish app (.pool r.event) }
  | outside {α : Type} (f : σ → α × σ) (w : Scene σ) :
      Attended app (.outside f) w (f w.outside).1 { w with outside := (f w.outside).2 }
  | publish (e : ValidatorEvent) (w : Scene σ) :
      Attended app (.publish e) w () { w with hub := w.hub.publish app (.validator e) }
  | report (records : List LogRecord) (w : Scene σ) : Attended app (.report records) w () w

namespace Program

variable {app : Option String} {p : Program σ α}

/-- A live run stays in step with the work at a site that shows the same, whatever has been observed
there. -/
theorem Lives.shows {w w' : Scene σ} {a : α} (h : p.Lives app w a w') {s : Site σ}
    (hs : w.Shows s) : (p.run s).1 = a ∧ w'.Shows (p.run s).2 := by
  induction h generalizing s with
  | meanwhile happened _ ih => exact ih ⟨hs.mempool_eq.trans happened.mempool_eq.symm, hs.outside_eq⟩
  | pure a w => exact ⟨rfl, hs⟩
  | bind _ _ ih₁ ih₂ =>
      obtain ⟨rfl, hs⟩ := ih₁ hs
      exact ih₂ hs
  | mempool w => exact ⟨hs.mempool_eq, hs⟩
  | call_error change =>
      rw [run, PoolCall.run_eq_call, Action.call, hs.mempool_eq, change]
      exact ⟨rfl, hs⟩
  | call_ok change happened =>
      rw [run, PoolCall.run_eq_call, Action.call, hs.mempool_eq, change]
      refine ⟨rfl, ?_, hs.outside_eq⟩
      rw [Hub.mempool_publish, happened.mempool_eq]
      rfl
  | outside f w =>
      rw [run, Action.outside, hs.outside_eq]
      exact ⟨rfl, hs.mempool_eq, rfl⟩
  | publish e w => exact ⟨rfl, hs.mempool_eq.trans (Hub.mempool_publish _ _ _).symm, hs.outside_eq⟩
  | report records w => exact ⟨rfl, hs.mempool_eq, hs.outside_eq⟩

/-- Live runs are also those during which nothing happens at the hub but that workers take turns. -/
theorem Attended.lives {w w' : Scene σ} {a : α} (h : p.Attended app w a w') : p.Lives app w a w' := by
  induction h with
  | turns happened _ ih => exact .meanwhile happened.meanwhile ih
  | pure a w => exact .pure a w
  | bind _ _ ih₁ ih₂ => exact .bind ih₁ ih₂
  | mempool w => exact .mempool w
  | call_error change => exact .call_error change
  | call_ok change happened => exact .call_ok change happened.meanwhile
  | outside f w => exact .outside f w
  | publish e w => exact .publish e w
  | report records w => exact .report records w

/-- Doing the work first and publishing its events afterwards is a live run, and nothing else happens
during it. -/
theorem attended_run (app : Option String) (p : Program σ α) (w : Scene σ) :
    let done := w.hub.run app w.outside p.run
    p.Attended app w done.1 ⟨done.2.2, done.2.1.outside⟩ := by
  show p.Attended app w (p.run w.site).1
    ⟨w.hub.settle app (p.run w.site).2, (p.run w.site).2.outside⟩
  induction p generalizing w with
  | pure a => exact .pure a w
  | bind first next ihfirst ihnext =>
      have hfirst := ihfirst w
      rw [run, Action.bind_apply]
      generalize first.run w.site = r at hfirst
      have hnext := ihnext r.1 ⟨w.hub.settle app r.2, r.2.outside⟩
      have hsite : Scene.site ⟨w.hub.settle app r.2, r.2.outside⟩ = r.2.unobserved := by
        rw [Scene.site, Hub.mempool_settle, Site.unobserved]
      rw [hsite] at hnext
      rw [run_unobserved (next r.1) r.2, Hub.settle_following]
      exact .bind hfirst hnext
  | mempool => exact .mempool w
  | call c =>
      rw [run, PoolCall.run_eq_call, Action.call]
      cases hchange : c.change w.hub.mempool with
      | error e =>
          have hsite : c.change w.site.mempool = .error e := hchange
          rw [hsite]
          exact .call_error hchange
      | ok r =>
          have hsite : c.change w.site.mempool = .ok r := hchange
          rw [hsite]
          exact .call_ok hchange (.nothing _)
  | outside f => exact .outside f w
  | publish e => exact .publish e w
  | report records => exact .report records w

end Program

/-! ## Runs of tasks -/

/-- What is seen of a task: its answer, and the mempool and the state outside after it. There a module
may keep a record of the calls that are made to it. -/
structure TaskView (σ : Type) where
  answer : Answer
  mempool : Mempool
  outside : σ

/-- What is seen of tasks that are done one after another at a site. -/
def Task.views : List (Task σ) → Site σ → List (TaskView σ)
  | [], _ => []
  | t :: rest, s =>
      let done := t.run s
      ⟨done.1, done.2.mempool, done.2.outside⟩ :: views rest done.2

/-- A task and how it is wired: the app whose bus gets the events of its validator, if any, and whether
the settings of its validator ask for every event to be logged. -/
structure WiredTask (σ : Type) where
  app : Option String
  logEvents : Bool
  task : Task σ

/-- What may be seen of wired tasks that are done one after another, live. -/
inductive Transcript : Scene σ → List (WiredTask σ) → List (TaskView σ) → Prop
  | finished (w : Scene σ) : Transcript w [] []
  | task {w w' : Scene σ} {t : WiredTask σ} {rest : List (WiredTask σ)} {p : Program σ Answer}
      {a : Answer} {views : List (TaskView σ)} (does : p.run = (t.task.logging t.logEvents).run)
      (run : p.Lives t.app w a w') (later : Transcript w' rest views) :
      Transcript w (t :: rest) (⟨a, w'.hub.mempool, w'.outside⟩ :: views)

namespace Transcript

variable {w : Scene σ} {s : Site σ} {tasks : List (WiredTask σ)}

theorem eq_views {views : List (TaskView σ)} (h : Transcript w tasks views) (hs : w.Shows s) :
    views = Task.views (tasks.map WiredTask.task) s := by
  induction h generalizing s with
  | finished w => rfl
  | task does run later ih =>
      obtain ⟨rfl, hs⟩ := run.shows hs
      rw [does, Task.run_logging] at hs ⊢
      rw [List.map_cons, Task.views, ← ih hs, hs.mempool_eq, hs.outside_eq]

theorem of_orderly (h : ∀ t ∈ tasks, t.task.Orderly) (hs : w.Shows s) :
    Transcript w tasks (Task.views (tasks.map WiredTask.task) s) := by
  induction tasks generalizing w s with
  | nil => exact .finished w
  | cons t rest ih =>
      obtain ⟨p, hp⟩ := Task.orderly_run (h t List.mem_cons_self)
      have hlive := (p.attended_run t.app w).lives
      have hshows := hlive.shows hs
      generalize w.hub.run t.app w.outside p.run = done at hlive hshows
      rw [hp] at hshows
      obtain ⟨hanswer, hs⟩ := hshows
      have hrest := ih (fun u hu => h u (List.mem_cons_of_mem _ hu)) hs
      rw [List.map_cons, Task.views, hanswer, hs.mempool_eq, hs.outside_eq]
      exact .task (hp.trans (t.task.run_logging t.logEvents).symm) hlive hrest

end Transcript

/-- **Observers have no influence.** Let tasks be done one after another, starting from some mempool and
some state outside. Then what is seen of them, the calls that modules note included, is settled: it is
the same at every hub, whatever app its mempool reports to and whatever buses there are, with workers
that are busy, stopped or ended by a panic; for every choice of apps and of whether events are logged;
and whatever happens at the hub while the tasks are being done. -/
theorem observers_have_no_influence (mempool : Mempool) (outside : σ) (tasks : List (Task σ))
    (htasks : ∀ t ∈ tasks, t.Orderly) :
    ∃ views, ∀ (hub : Hub) (wired : List (WiredTask σ)), hub.mempool = mempool →
      wired.map WiredTask.task = tasks →
      ∀ seen, Transcript ⟨hub, outside⟩ wired seen ↔ seen = views := by
  refine ⟨Task.views tasks { mempool, outside }, fun hub wired hmempool hwired seen => ?_⟩
  have hs : Scene.Shows ⟨hub, outside⟩ { mempool, outside } := ⟨hmempool.symm, rfl⟩
  subst hwired
  constructor
  · exact fun h => h.eq_views hs
  · rintro rfl
    exact .of_orderly (fun t ht => htasks t.task (List.mem_map_of_mem ht)) hs

/-- Note a call of a module, outside. -/
def note (text : String) : Action (List String) Unit :=
  Action.outside fun notes => ((), notes ++ [text])

theorem orderly_note_return (text : String) (a : α) : (do note text; return a).Orderly :=
  ⟨.bind (.outside fun notes => ((), notes ++ [text])) fun _ => .pure a, rfl⟩

/-- A validator whose modules note how they are called. -/
def noting : Validator (List String) where
  settings := { runProposalBuilder := true }
  subscribers := TextMap.empty.insert "key" {
    extend _ message := do
      note ("extend " ++ message.typeUrl)
      return .ok message.value
    verify info := do
      note ("verify " ++ toString info.length)
      return .ok .accept }
  builder := some fun height txs => do
    note ("build " ++ toString height ++ " " ++ toString txs.length)
    return .ok txs

theorem orderly_noting : noting.Orderly where
  subscribers x hx := by
    obtain rfl := List.mem_singleton.1 hx
    exact ⟨fun _ _ => orderly_note_return _ _, fun _ => orderly_note_return _ _⟩
  builder := by
    rintro _ ⟨⟩ height txs
    exact orderly_note_return _ _

/-- Nothing changes if all that happens is reported to handlers that panic at once. -/
theorem no_influence_of_panics :
    let tasks : List (Task (List String)) :=
      [.call (.insert signedBid), .extend noting ⟨2⟩, .verify noting [], .prepare noting ⟨3⟩ [],
        .process noting ⟨3⟩ [], .call (.remove signedBid)]
    let quiet : Hub := {}
    let panicking := quiet.start "app" ⟨true, fun _ => some fun _ _ => .panics⟩
    (∀ t ∈ tasks, t.Orderly) ∧ quiet.mempool = {} ∧ panicking.mempool = {} ∧
      ∃ views,
        (∀ seen, Transcript ⟨quiet, []⟩ (tasks.map (⟨none, false, ·⟩)) seen ↔ seen = views) ∧
        ∀ seen, Transcript ⟨panicking, []⟩ (tasks.map (⟨some "app", true, ·⟩)) seen ↔
          seen = views := by
  intro tasks quiet panicking
  have htasks : ∀ t ∈ tasks, t.Orderly := by
    simp only [tasks, List.forall_mem_cons]
    exact ⟨trivial, orderly_noting, orderly_noting, orderly_noting, orderly_noting, trivial, nofun⟩
  clear_value tasks
  have hwired (app : Option String) (logEvents : Bool) :
      (tasks.map (WiredTask.mk app logEvents)).map WiredTask.task = tasks := by
    rw [List.map_map]
    exact List.map_id _
  obtain ⟨views, hviews⟩ := observers_have_no_influence {} [] tasks htasks
  exact ⟨htasks, rfl, rfl, views, hviews quiet _ rfl (hwired none false),
    hviews panicking _ rfl (hwired (some "app") true)⟩

end BidQuorum
