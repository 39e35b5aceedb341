import Lockstep.Session

/- What a session is asked to do, what came of it, and what it asked of its transport.

   1. An `Operation` queues an event at a microsecond, or is one of the two barriers. `perform` gives a
      `Record` of what came of it, and the session after it.
   2. `run` performs operations one after the other, whatever each of them ends with.
   3. A recorded transport does what the transport does, and keeps beside its state a `Handover` for each
      events barrier that is asked of it: the queue it was given and what came of it. Nothing gets there
      but what a session hands over.
   4. A log of records tells which events were queued (`queuedIn`), what came of the events barriers
      (`outcomesIn`), which events were queued for each of them (`batches`), and which since the last
      (`unsent`). -/
namespace Lockstep

namespace Session

inductive Operation where
  | queueEvent (now : UInt64) (p : Payload)
  | syncEvents
  | syncSwap

/-- What came of an operation. -/
inductive Record where
  | queued (e : Event)
  /-- No stamp was left for an event, which was not queued. -/
  | refused (e : Queue.Error)
  | synced (outcome : Except Barrier.Error Queue)
  | swapped (outcome : Except Barrier.Error Unit)

section
variable {σ : Type}

/-- What comes of an operation, and the session after it. -/
def perform (s : Session σ) : Operation → Record × Session σ
  | .queueEvent now p =>
    match s.queueEvent now p with
    | .error e => (.refused e, s)
    | .ok (stamp, s') => (.queued (stamp, p), s')
  | .syncEvents =>
    let (outcome, s') := s.syncEvents
    (.synced outcome, s')
  | .syncSwap =>
    let (outcome, s') := s.syncSwap
    (.swapped outcome, s')

/-- What comes of operations, and the session after them. -/
def run (s : Session σ) : List Operation → List Record × Session σ
  | [] => ([], s)
  | op :: ops =>
    let (r, s') := s.perform op
    let (log, s'') := s'.run ops
    (r :: log, s'')

end
end Session

/-! ## What a transport is asked -/

/-- An events barrier as a transport sees it: the queue it is given, and what comes of it. -/
structure Handover where
  given : Queue
  outcome : Except Barrier.Error Queue

/-- The queue that was given holds just these events. -/
def Handover.Carries (h : Handover) (events : List Event) : Prop := h.given.items.Perm events

/-- The transport that also writes down each events barrier that is asked of it. -/
def Transport.recorded {σ : Type} (t : Transport σ) : Transport (σ × List Handover) where
  role := t.role
  syncEvents := fun q s =>
    let (outcome, state) := t.syncEvents q s.1
    (outcome, state, s.2 ++ [⟨q, outcome⟩])
  syncSwap := fun s =>
    let (outcome, state) := t.syncSwap s.1
    (outcome, state, s.2)

namespace Session

/-- The session over its recorded transport, to which some queues were handed before. -/
def recorded {σ : Type} (s : Session σ) (handed : List Handover) : Session (σ × List Handover) where
  registry := s.registry
  pending := s.pending
  transport := s.transport.recorded
  state := (s.state, handed)
  frame := s.frame

/-! ## What a log tells -/

/-- The event that was queued, if one was. -/
def Record.queued? : Record → Option Event
  | queued e => some e
  | _ => none

/-- What came of an events barrier, if it was one. -/
def Record.outcome? : Record → Option (Except Barrier.Error Queue)
  | synced outcome => some outcome
  | _ => none

/-- The events that were queued. -/
def queuedIn (log : List Record) : List Event := log.filterMap Record.queued?

/-- What came of the events barriers. -/
def outcomesIn (log : List Record) : List (Except Barrier.Error Queue) := log.filterMap Record.outcome?

/-- What is left for the next events barrier after a record, if `held` was before it. -/
def Record.leaves (held : List Event) : Record → List Event
  | queued e => held ++ [e]
  | synced _ => []
  | refused _ | swapped _ => held

/-- What is left for the next events barrier: `held` and the events that were queued, if there was no
    events barrier, and otherwise the events that were queued since the last one. -/
def unsent (held : List Event) (log : List Record) : List Event := log.foldl Record.leaves held

/-- The events that were queued for each events barrier: those since the one before it, and for the
    first one those after `held`. -/
def batches (held : List Event) : List Record → List (List Event)
  | [] => []
  | .synced _ :: log => held :: batches [] log
  | r :: log => batches (r.leaves held) log

end Session
end Lockstep
