import Lockstep.Barrier.Transport

/- A process of a cluster.

   A session has the process's registry, the events queued since the last events barrier, a transport
   with its state, and the number of frames it has finished. An events barrier takes the queued
   events out before it starts, so that they are gone also when it fails; a frame is finished when a
   swap barrier succeeds. -/
namespace Lockstep

structure Session (σ : Type) where
  registry : Registry
  pending : Queue
  transport : Transport σ
  state : σ
  frame : UInt64

namespace Session
variable {σ : Type}

/-- A session over a transport. -/
def start (transport : Transport σ) (state : σ) (registryName : String) : Session σ :=
  ⟨.empty registryName, .empty, transport, state, 0⟩

/-- An event for the next events barrier, stamped with the microsecond at which it is queued. -/
def queueEvent (s : Session σ) (now : UInt64) (p : Payload) :
    Except Queue.Error (Stamp × Session σ) :=
  match s.pending.pushAt now p with
  | .error e => .error e
  | .ok (stamp, pending) => .ok (stamp, { s with pending })

/-- The events barrier. -/
def syncEvents (s : Session σ) : Except Barrier.Error Queue × Session σ :=
  let (r, state) := s.transport.syncEvents s.pending s.state
  (r, { s with pending := .empty, state })

/-- The swap barrier. -/
def syncSwap (s : Session σ) : Except Barrier.Error Unit × Session σ :=
  match s.transport.syncSwap s.state with
  | (.ok (), state) => (.ok (), { s with state, frame := s.frame + 1 })
  | (.error e, state) => (.error e, { s with state })

end Session
end Lockstep
