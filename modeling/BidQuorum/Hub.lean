import BidQuorum.Bus
import BidQuorum.Site
import BidQuorum.Settings

set_option autoImplicit false

/-! # Apps around a mempool

Several apps may work on one mempool, each with a bus for its events. What a validator reports goes
to the bus of its own app. What the mempool reports goes to a single receiver: the app that was
started last, if it does anything with events at all, until an app is stopped. -/

namespace BidQuorum

structure Hub where
  mempool : Mempool := {}
  /-- The app whose bus gets the events of the mempool. -/
  receiver : Option String := none
  /-- The buses of the apps that were started, also of those stopped since. -/
  buses : TextMap Bus := .empty

namespace Hub

/-- Put an event onto the bus of an app, if it has one. -/
def deliver (h : Hub) (app : String) (e : Event) : Hub :=
  match h.buses.find? app with
  | none => h
  | some bus => { h with buses := h.buses.insert app (bus.publish e) }

/-- The app whose bus gets an event that came up in the work of `app`, or in work on the mempool
alone. -/
def target (h : Hub) (app : Option String) : Event → Option String
  | .pool _ => h.receiver
  | .validator _ => app

/-- Publish an event that came up in the work of `app`, or in work on the mempool alone. -/
def publish (app : Option String) (h : Hub) (e : Event) : Hub :=
  match h.target app e with
  | none => h
  | some target => h.deliver target e

/-- Publish the events of work that has been done, and take over its mempool. -/
def settle {σ : Type} (h : Hub) (app : Option String) (site : Site σ) : Hub :=
  site.events.foldl (publish app) { h with mempool := site.mempool }

/-- Do the work of an app, or work on the mempool alone, and publish its events. The answer comes
with the site after the work. -/
def run {σ α : Type} (h : Hub) (app : Option String) (outside : σ) (work : Action σ α) :
    α × Site σ × Hub :=
  let done := StateT.run work { mempool := h.mempool, outside }
  (done.1, done.2, h.settle app done.2)

/-- Start an app with its handlers. It becomes the receiver of the mempool's events, or nobody does
if it has no use for events. -/
def start (h : Hub) (app : String) (handlers : Handlers) : Hub where
  mempool := h.mempool
  receiver := if handlers.isEmpty then none else some app
  buses := h.buses.insert app (Bus.start handlers)

/-- One turn of the worker of an app's bus. -/
def step (h : Hub) (app : String) : Hub :=
  match h.buses.find? app with
  | none => h
  | some bus => { h with buses := h.buses.insert app bus.step }

/-- Stop an app. The mempool is left without a receiver, and the app's bus is closed. The log says
so if a handler had panicked. -/
def stop (h : Hub) (app : String) : Hub × List LogRecord :=
  let h := { h with receiver := none }
  match h.buses.find? app with
  | none => (h, [])
  | some bus =>
      let bus := bus.close
      ({ h with buses := h.buses.insert app bus },
        if bus.phase = .panicked then [⟨.error, "Event bus thread panicked"⟩] else [])

end Hub

end BidQuorum
