import Mathlib.Logic.Function.Iterate
import BidQuorum.Bus

set_option autoImplicit false

/-! # The worker of a bus

At any time a worker has taken some of the events that were published, the first of them, and the
others wait in its queue; for those it has taken it has done all there is to do, in order
(`Bus.Follows`). So nothing is lost between its turns. Once told to stop it ends within two turns
(`Bus.isOver_step_step`), and by then it has served all events unless a handler has panicked
(`Bus.Follows.concluded`). -/

namespace BidQuorum

/-! ## What there is to do -/

namespace Handlers

variable (h : Handlers)

/-- The handler for an event, if there is one, returns when it is given the event after those of its kind
among `before`. -/
def Returns (before : List Event) (e : Event) : Prop :=
  ∀ handler, h.handler? e.kind = some handler →
    handler (before.filter fun earlier => earlier.kind = e.kind) e = .returns

/-- No handler panics at any of the events. -/
def AllReturn (events : List Event) : Prop :=
  ∀ before e after, events = before ++ e :: after → h.Returns before e

/-- A handler panics at the event, after all went well with those before it. -/
structure PanicsAt (before : List Event) (e : Event) : Prop where
  calm : h.AllReturn before
  panics : ¬ h.Returns before e

/-- All there is to do for an event: its log line is written, if events are logged, and then it is given
to its handler, if it has one. -/
def due (e : Event) : List Delivery :=
  (if h.logEvents then [.logged e] else []) ++
    if (h.handler? e.kind).isSome then [.handled e] else []

variable {h}

theorem allReturn_nil : h.AllReturn [] := by
  intro before e after hsplit
  cases before <;> cases hsplit

theorem allReturn_snoc {events : List Event} {e : Event} :
    h.AllReturn (events ++ [e]) ↔ h.AllReturn events ∧ h.Returns events e := by
  constructor
  · intro hall
    refine ⟨fun before x after hsplit => hall before x (after ++ [e]) ?_, hall events e [] rfl⟩
    rw [hsplit, List.append_assoc, List.cons_append]
  · rintro ⟨hall, hlast⟩ before x after hsplit
    rcases List.eq_nil_or_concat after with rfl | ⟨after, y, rfl⟩
    · obtain ⟨rfl, hx⟩ := List.append_inj' hsplit rfl
      cases hx
      exact hlast
    · rw [List.concat_eq_append, ← List.cons_append, ← List.append_assoc] at hsplit
      exact hall before x after (List.append_inj' hsplit rfl).1

/-- A handler panics for the first time at one place only. -/
theorem PanicsAt.unique {before before' : List Event} {e e' : Event} {after after' : List Event}
    (hfirst : h.PanicsAt before e) (hfirst' : h.PanicsAt before' e')
    (hsplit : before ++ e :: after = before' ++ e' :: after') : before = before' ∧ e = e' := by
  rcases List.append_eq_append_iff.1 hsplit with ⟨between, rfl, hrest⟩ | ⟨between, rfl, hrest⟩
  · cases between with
    | nil => exact ⟨(List.append_nil _).symm, (List.cons.inj hrest).1⟩
    | cons x between =>
        obtain ⟨rfl, -⟩ := List.cons.inj hrest
        exact absurd (hfirst'.calm before e between rfl) hfirst.panics
  · cases between with
    | nil => exact ⟨List.append_nil _, (List.cons.inj hrest).1.symm⟩
    | cons x between =>
        obtain ⟨rfl, -⟩ := List.cons.inj hrest
        exact absurd (hfirst.calm before' e' between rfl) hfirst'.panics

end Handlers

namespace Bus

variable {h : Handlers} {b : Bus} {events seen : List Event}

/-! ## One event -/

/-- Given to handlers were, of the events that all was done for, those that have one. -/
theorem handled_eq (hdone : b.deliveries = events.flatMap h.due) :
    b.handled = events.filter fun e => (h.handler? e.kind).isSome := by
  rw [handled, hdone]
  clear hdone
  induction events with
  | nil => rfl
  | cons e rest ih =>
      rw [List.flatMap_cons, List.filterMap_append, ih, Handlers.due, List.filter_cons]
      cases h.logEvents <;> cases (h.handler? e.kind).isSome <;> rfl

/-- The handler for a kind, if there is one, was given the events of that kind. -/
theorem handled_kind_eq (hdone : b.deliveries = events.flatMap h.due) (kind : EventKind) :
    (b.handled.filter fun e => e.kind = kind)
      = if (h.handler? kind).isSome then events.filter fun e => e.kind = kind else [] := by
  rw [handled_eq hdone, List.filter_filter]
  split
  · rename_i hsome
    refine List.filter_congr fun e _ => ?_
    by_cases hkind : e.kind = kind
    · rw [hkind, hsome, Bool.and_true]
    · simp [hkind]
  · rename_i hnone
    refine List.filter_eq_nil_iff.2 fun e _ => ?_
    by_cases hkind : e.kind = kind
    · simp [hkind, hnone]
    · simp [hkind]

/-- With logging there is a log line for each of the events that all was done for. -/
theorem logged_eq (hdone : b.deliveries = events.flatMap h.due) :
    b.logged = if h.logEvents then events else [] := by
  rw [logged, hdone]
  clear hdone
  induction events with
  | nil => cases h.logEvents <;> rfl
  | cons e rest ih =>
      rw [List.flatMap_cons, List.filterMap_append, ih, Handlers.due]
      cases h.logEvents <;> cases (h.handler? e.kind).isSome <;> rfl

theorem log_eq (b : Bus) (e : Event) :
    b.log e = { b with
      deliveries := b.deliveries ++ if b.handlers.logEvents then [.logged e] else [] } := by
  rw [log]
  split
  · rfl
  · rw [List.append_nil]

theorem handled_log (b : Bus) (e : Event) : (b.log e).handled = b.handled := by
  rw [log_eq, handled, handled, List.filterMap_append]
  cases b.handlers.logEvents <;> exact List.append_nil _

/-- For one more event all is done, and then either the handler returns or it panics. -/
theorem fire_eq (hhandlers : b.handlers = h) (hdone : b.deliveries = seen.flatMap h.due) (e : Event) :
    (h.Returns seen e ∧ b.fire e = { b with deliveries := (seen ++ [e]).flatMap h.due }) ∨
    (¬ h.Returns seen e ∧
      b.fire e = { b with deliveries := (seen ++ [e]).flatMap h.due, phase := .panicked }) := by
  subst hhandlers
  have hall : (seen ++ [e]).flatMap b.handlers.due = b.deliveries ++ b.handlers.due e := by
    rw [List.flatMap_append, List.flatMap_singleton, hdone]
  have hbefore := handled_kind_eq hdone e.kind
  rw [fire, handle, handled_log, log_eq, hbefore, hall, Handlers.due, ← List.append_assoc]
  dsimp only
  cases hhandler : b.handlers.handler? e.kind with
  | none =>
      refine .inl ⟨fun handler hsome => ?_, ?_⟩
      · cases hhandler.symm.trans hsome
      · simp
  | some handler =>
      have hreturns : b.handlers.Returns seen e ↔
          handler (seen.filter fun earlier => earlier.kind = e.kind) e = .returns :=
        ⟨fun hreturns => hreturns handler hhandler,
          fun hreturns _ hsome => Option.some.inj (hhandler.symm.trans hsome) ▸ hreturns⟩
      simp only [Option.isSome_some, if_true]
      cases hreaction : handler (seen.filter fun earlier => earlier.kind = e.kind) e with
      | returns => exact .inl ⟨hreturns.2 hreaction, rfl⟩
      | panics =>
          refine .inr ⟨fun h => ?_, rfl⟩
          cases hreaction.symm.trans (hreturns.1 h)

/-- For several more events all is done, up to one whose handler panics. -/
theorem fireAll_eq (hhandlers : b.handlers = h) (hphase : b.phase ≠ .panicked)
    (hdone : b.deliveries = seen.flatMap h.due) (hcalm : h.AllReturn seen) (queue : List Event) :
    (h.AllReturn (seen ++ queue) ∧
      fireAll queue b = { b with deliveries := (seen ++ queue).flatMap h.due }) ∨
    ∃ before e later, queue = before ++ e :: later ∧ h.PanicsAt (seen ++ before) e ∧
      fireAll queue b
        = { b with deliveries := (seen ++ before ++ [e]).flatMap h.due, phase := .panicked } := by
  induction queue generalizing b seen with
  | nil =>
      rw [List.append_nil, ← hdone]
      exact .inl ⟨hcalm, rfl⟩
  | cons e rest ih =>
      rw [fireAll]
      rcases fire_eq hhandlers hdone e with ⟨hreturns, hfire⟩ | ⟨hpanics, hfire⟩
      · rw [hfire]
        dsimp only
        rw [if_neg hphase]
        have hcalm := Handlers.allReturn_snoc.2 ⟨hcalm, hreturns⟩
        rcases ih (b := { b with deliveries := (seen ++ [e]).flatMap h.due }) hhandlers hphase rfl hcalm
          with ⟨hall, hrest⟩ | ⟨before, x, later, hsplit, hfirst, hrest⟩
        · rw [List.append_assoc, List.singleton_append] at hall hrest
          exact .inl ⟨hall, hrest⟩
        · rw [List.append_assoc seen, List.singleton_append] at hfirst hrest
          exact .inr ⟨e :: before, x, later, congrArg _ hsplit, hfirst, hrest⟩
      · rw [hfire]
        refine .inr ⟨[], e, rest, rfl, ?_, ?_⟩
        · rw [List.append_nil]
          exact ⟨hcalm, hpanics⟩
        · rw [List.append_nil]
          rfl

/-! ## Turn by turn -/

/-- Told to stop, the worker still takes all that waits for it. -/
theorem step_told (hphase : b.phase = .checking) (htold : b.stopping = true) :
    b.step =
      let last := fireAll b.queue { b with queue := [] }
      if last.phase = .panicked then last else { last with phase := .finished } := by
  rw [step]
  split <;> simp_all

theorem step_untold (hphase : b.phase = .checking) (huntold : b.stopping = false) :
    b.step = { b with phase := .waiting } := by
  rw [step]
  split <;> simp_all

theorem step_idle (hphase : b.phase = .waiting) (hqueue : b.queue = []) :
    b.step = { b with phase := .checking } := by
  rw [step]
  split <;> simp_all

theorem step_next {e : Event} {queue : List Event} (hphase : b.phase = .waiting)
    (hqueue : b.queue = e :: queue) : b.step = fire { b with queue, phase := .checking } e := by
  rw [step]
  split <;> simp_all

theorem step_of_isOver (hover : b.phase.isOver = true) : b.step = b := by
  rw [step]
  split <;> simp_all [Phase.isOver]

/-- How far the worker of a bus with the handlers has come with the events that were published. -/
inductive Progress (h : Handlers) (events : List Event) (b : Bus) : Prop
  /-- It has taken the events `seen`, and the others wait for it. -/
  | running (seen : List Event) (taken : events = seen ++ b.queue) (calm : h.AllReturn seen)
      (phase : b.phase.isOver = false) (done : b.deliveries = seen.flatMap h.due)
  /-- It was told to stop, and has taken all events. -/
  | finished (told : b.stopping = true) (calm : h.AllReturn events) (phase : b.phase = .finished)
      (done : b.deliveries = events.flatMap h.due)
  /-- The handler for `e` has panicked. -/
  | panicked (before : List Event) (e : Event) (later : List Event)
      (taken : events = before ++ e :: later) (first : h.PanicsAt before e)
      (phase : b.phase = .panicked) (done : b.deliveries = (before ++ [e]).flatMap h.due)

/-- The worker of the bus follows the events that were published, with the handlers. -/
structure Follows (h : Handlers) (events : List Event) (b : Bus) : Prop where
  handlers_eq : b.handlers = h
  progress : b.Progress h events

theorem follows_start (h : Handlers) : (start h).Follows h [] :=
  ⟨rfl, .running [] rfl Handlers.allReturn_nil rfl rfl⟩

namespace Follows

theorem signal (hb : b.Follows h events) : b.signal.Follows h events := by
  refine ⟨hb.handlers_eq, ?_⟩
  cases hb.progress with
  | running seen taken calm phase done => exact .running seen taken calm phase done
  | finished told calm phase done => exact .finished rfl calm phase done
  | panicked before e later taken first phase done =>
      exact .panicked before e later taken first phase done

/-- As long as the worker has not been told to stop, another event may be published. -/
theorem publish (hb : b.Follows h events) (hopen : b.stopping = false) (e : Event) :
    (b.publish e).Follows h (events ++ [e]) := by
  obtain ⟨hhandlers, hprogress⟩ := hb
  rw [Bus.publish]
  cases hprogress with
  | running seen taken calm phase done =>
      rw [if_neg (Bool.eq_false_iff.1 phase)]
      refine ⟨hhandlers, .running seen ?_ calm phase done⟩
      rw [taken, List.append_assoc]
  | finished told calm phase done => cases hopen.symm.trans told
  | panicked before x later taken first phase done =>
      rw [phase, Phase.isOver, if_pos rfl]
      refine ⟨hhandlers, .panicked before x (later ++ [e]) ?_ first phase done⟩
      rw [taken, List.append_assoc, List.cons_append]

/-- A turn of the worker loses nothing: an event that leaves the queue is one that all is done for, up
to a panic. -/
theorem step (hb : b.Follows h events) : b.step.Follows h events := by
  obtain ⟨hhandlers, hprogress⟩ := hb
  cases hprogress with
  | finished told calm phase done =>
      rw [step_of_isOver (by rw [phase]; rfl)]
      exact ⟨hhandlers, .finished told calm phase done⟩
  | panicked before e later taken first phase done =>
      rw [step_of_isOver (by rw [phase]; rfl)]
      exact ⟨hhandlers, .panicked before e later taken first phase done⟩
  | running seen taken calm phase done =>
      cases hphase : b.phase with
      | finished => rw [hphase] at phase; cases phase
      | panicked => rw [hphase] at phase; cases phase
      | checking =>
          cases htold : b.stopping with
          | false =>
              rw [step_untold hphase htold]
              exact ⟨hhandlers, .running seen taken calm rfl done⟩
          | true =>
              have hne : b.phase ≠ .panicked := by rw [hphase]; nofun
              rw [step_told hphase htold]
              rcases fireAll_eq (b := { b with queue := [] }) hhandlers hne done calm b.queue with
                ⟨hall, hlast⟩ | ⟨before, e, later, hsplit, hfirst, hlast⟩
              · rw [hlast]
                dsimp only
                rw [if_neg hne, ← taken]
                exact ⟨hhandlers, .finished htold (taken ▸ hall) rfl rfl⟩
              · rw [hlast]
                dsimp only
                rw [if_pos rfl]
                refine ⟨hhandlers, .panicked (seen ++ before) e later ?_ hfirst rfl rfl⟩
                rw [taken, hsplit, List.append_assoc]
      | waiting =>
          cases hqueue : b.queue with
          | nil =>
              rw [step_idle hphase hqueue]
              exact ⟨hhandlers, .running seen taken calm rfl done⟩
          | cons e queue =>
              rw [hqueue] at taken
              rw [step_next hphase hqueue]
              rcases fire_eq (b := { b with queue, phase := .checking }) hhandlers done e with
                ⟨hreturns, hfire⟩ | ⟨hpanics, hfire⟩
              · have hcalm := Handlers.allReturn_snoc.2 ⟨calm, hreturns⟩
                rw [hfire]
                refine ⟨hhandlers, .running (seen ++ [e]) ?_ hcalm rfl rfl⟩
                rw [taken, List.append_assoc, List.singleton_append]
              · rw [hfire]
                exact ⟨hhandlers, .panicked seen e queue taken ⟨calm, hpanics⟩ rfl rfl⟩

theorem turns (hb : b.Follows h events) (n : Nat) : (Bus.step^[n] b).Follows h events := by
  induction n generalizing b with
  | zero => exact hb
  | succ n ih => exact ih hb.step

end Follows

/-! ## The end -/

/-- All there is to do was done for the events, one after another, and nothing else. -/
structure HasServed (b : Bus) (h : Handlers) (events : List Event) : Prop where
  /-- The log line of an event comes before it is given to its handler. -/
  deliveries_eq : b.deliveries = events.flatMap h.due
  handled_eq (kind : EventKind) : (b.handled.filter fun e => e.kind = kind)
    = if (h.handler? kind).isSome then events.filter fun e => e.kind = kind else []
  logged_eq : b.logged = if h.logEvents then events else []

theorem hasServed (hdone : b.deliveries = events.flatMap h.due) : b.HasServed h events :=
  ⟨hdone, handled_kind_eq hdone, logged_eq hdone⟩

/-- How a worker has to end for which these events were published. -/
structure Concluded (b : Bus) (h : Handlers) (events : List Event) : Prop where
  /-- If no handler panics, all events have been served. -/
  of_allReturn : h.AllReturn events → b.HasServed h events ∧ b.phase = .finished
  /-- If a handler panics, the events up to that one have been served. -/
  of_panicsAt : ∀ before e after, events = before ++ e :: after → h.PanicsAt before e →
    b.HasServed h (before ++ [e]) ∧ b.phase = .panicked

theorem Follows.concluded (hb : b.Follows h events) (hover : b.phase.isOver = true) :
    b.Concluded h events := by
  cases hb.progress with
  | running seen taken calm phase done => cases phase.symm.trans hover
  | finished told calm phase done =>
      refine ⟨fun _ => ⟨hasServed done, phase⟩, fun before e after hsplit hpanics => ?_⟩
      exact absurd (calm before e after hsplit) hpanics.panics
  | panicked before e later taken first phase done =>
      refine ⟨fun hall => absurd (hall before e later taken) first.panics, ?_⟩
      intro before' e' after hsplit hpanics
      obtain ⟨rfl, rfl⟩ := first.unique hpanics (taken.symm.trans hsplit)
      exact ⟨hasServed done, phase⟩

/-! ## Coming to the end -/

theorem fire_fields (b : Bus) (e : Event) : (b.fire e).stopping = b.stopping ∧
    ((b.fire e).phase = b.phase ∨ (b.fire e).phase = .panicked) := by
  rw [fire, log_eq, handle]
  split
  · exact ⟨rfl, .inl rfl⟩
  · dsimp only
    split
    · exact ⟨rfl, .inl rfl⟩
    · exact ⟨rfl, .inr rfl⟩

theorem stopping_fireAll (queue : List Event) (b : Bus) : (fireAll queue b).stopping = b.stopping := by
  induction queue generalizing b with
  | nil => rfl
  | cons e rest ih =>
      rw [fireAll]
      split
      · exact (b.fire_fields e).1
      · exact (ih _).trans (b.fire_fields e).1

/-- The worker does not change whether it has been told to stop. -/
@[simp] theorem stopping_step (b : Bus) : b.step.stopping = b.stopping := by
  rw [step]
  split
  · split
    · dsimp only
      split <;> exact stopping_fireAll _ _
    · rfl
  · split
    · rfl
    · exact (fire_fields _ _).1
  · rfl
  · rfl

@[simp] theorem stopping_publish (b : Bus) (e : Event) : (b.publish e).stopping = b.stopping := by
  rw [publish]
  split <;> rfl

/-- A worker that looks for the signal when it has been told to stop ends with this turn. -/
theorem isOver_step (hphase : b.phase = .checking) (htold : b.stopping = true) :
    b.step.phase.isOver = true := by
  rw [step_told hphase htold]
  dsimp only
  split
  · rename_i hpanicked
    rw [hpanicked]
    rfl
  · rfl

/-- A worker that has been told to stop ends within two turns, wherever it is. -/
theorem isOver_step_step (htold : b.stopping = true) : b.step.step.phase.isOver = true := by
  cases hphase : b.phase with
  | checking =>
      have hover := isOver_step hphase htold
      rwa [step_of_isOver hover]
  | waiting =>
      -- The turn that ends the waiting is followed by a look for the signal, unless a handler panics.
      have hnext : b.step.phase = .checking ∨ b.step.phase = .panicked := by
        cases hqueue : b.queue with
        | nil => exact .inl (by rw [step_idle hphase hqueue])
        | cons e queue =>
            rw [step_next hphase hqueue]
            exact (fire_fields _ e).2
      rcases hnext with hnext | hnext
      · exact isOver_step hnext (by rwa [stopping_step])
      · rw [step_of_isOver (by rw [hnext]; rfl), hnext]
        rfl
  | finished =>
      have hover : b.phase.isOver = true := by rw [hphase]; rfl
      rwa [step_of_isOver hover, step_of_isOver hover]
  | panicked =>
      have hover : b.phase.isOver = true := by rw [hphase]; rfl
      rwa [step_of_isOver hover, step_of_isOver hover]

end Bus

end BidQuorum
