import BidQuorum.Event

set_option autoImplicit false

/-! # The event bus

Events are handled by a worker of their own, which takes them from a queue in the order they were
published. In turn the worker looks whether it has been told to stop and waits a while for an event.
Told to stop, it still handles what is in the queue, and ends. For each event it writes the log line
first, if events are logged, and then runs the handler for events of that kind, if there is one. A
handler that panics ends the worker at once, and nothing is handled or logged from then on. -/

namespace BidQuorum

/-! ## Handlers -/

/-- What a handler does with an event. -/
inductive Reaction where
  | returns
  | panics
deriving DecidableEq

/-- A handler: its reaction to an event, after it has been given those `before`. -/
abbrev Handler := (before : List Event) → Event → Reaction

/-- The handlers of an event bus. -/
structure Handlers where
  /-- Whether every event is logged. -/
  logEvents : Bool
  /-- The handler for events of a kind. -/
  handler? : EventKind → Option Handler

namespace Handlers

/-- Whether nothing happens for any event. -/
def isEmpty (h : Handlers) : Bool :=
  !h.logEvents && EventKind.all.all fun kind => (h.handler? kind).isNone

end Handlers

/-! ## The worker -/

/-- What the worker did for an event. -/
inductive Delivery where
  /-- Its log line was written. -/
  | logged (event : Event)
  /-- It was given to its handler. -/
  | handled (event : Event)
deriving DecidableEq

/-- Where the worker is. -/
inductive Phase where
  /-- About to look whether it has been told to stop. -/
  | checking
  /-- Waiting for an event. -/
  | waiting
  /-- At its end, after it was told to stop. -/
  | finished
  /-- At its end, after a handler panicked. -/
  | panicked
deriving DecidableEq

/-- Whether the worker has come to its end. -/
def Phase.isOver : Phase → Bool
  | .checking | .waiting => false
  | .finished | .panicked => true

structure Bus where
  handlers : Handlers
  /-- The events that wait for the worker. -/
  queue : List Event := []
  /-- Whether the worker has been told to stop. -/
  stopping : Bool := false
  phase : Phase := .checking
  /-- What the worker did so far, in order. -/
  deliveries : List Delivery := []

namespace Bus

/-- A bus whose worker has just been started. -/
def start (handlers : Handlers) : Bus := { handlers }

/-- The events that were given to handlers, in order. -/
def handled (b : Bus) : List Event :=
  b.deliveries.filterMap fun
    | .handled e => some e
    | .logged _ => none

/-- The events whose log lines were written, in order. -/
def logged (b : Bus) : List Event :=
  b.deliveries.filterMap fun
    | .handled _ => none
    | .logged e => some e

/-- Put an event into the queue. Nobody takes it from there once the worker has ended. -/
def publish (b : Bus) (e : Event) : Bus :=
  if b.phase.isOver then b else { b with queue := b.queue ++ [e] }

/-- Tell the worker to stop. -/
def signal (b : Bus) : Bus := { b with stopping := true }

/-- Write the log line of an event, if events are logged. -/
def log (b : Bus) (e : Event) : Bus :=
  if b.handlers.logEvents then { b with deliveries := b.deliveries ++ [.logged e] } else b

/-- Give an event to the handler for its kind, if there is one. -/
def handle (b : Bus) (e : Event) : Bus :=
  match b.handlers.handler? e.kind with
  | none => b
  | some handler =>
      let before := b.handled.filter fun earlier => earlier.kind = e.kind
      let deliveries := b.deliveries ++ [.handled e]
      match handler before e with
      | .returns => { b with deliveries }
      | .panics => { b with deliveries, phase := .panicked }

/-- All that happens for one event. -/
def fire (b : Bus) (e : Event) : Bus := (b.log e).handle e

/-- All that happens for several events, up to a panic. -/
def fireAll : List Event → Bus → Bus
  | [], b => b
  | e :: rest, b =>
      let b := b.fire e
      if b.phase = .panicked then b else fireAll rest b

/-- One turn of the worker. -/
def step (b : Bus) : Bus :=
  match b.phase with
  | .checking =>
      if b.stopping then
        let b := fireAll b.queue { b with queue := [] }
        if b.phase = .panicked then b else { b with phase := .finished }
      else { b with phase := .waiting }
  | .waiting =>
      match b.queue with
      | [] => { b with phase := .checking }
      | e :: queue => fire { b with queue, phase := .checking } e
  | .finished | .panicked => b

/-- Tell the worker to stop, and wait until it has ended: it is at most one turn away from looking
for the signal. -/
def close (b : Bus) : Bus := b.signal.step.step

end Bus

end BidQuorum
