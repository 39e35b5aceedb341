import Lockstep.Barrier.Hub
import Lockstep.Barrier.Member

/- The two barriers of a frame, whatever stands behind them.

   A `Transport` has a state and the two barriers on it. Behind it stands a hub, a member, nothing at
   all (`standalone`, where a queue passes through its text so that it looks as it would in a
   cluster), or a list of outcomes (`scripted`). -/
namespace Lockstep

structure Transport (σ : Type) where
  role : String
  syncEvents : Queue → σ → Except Barrier.Error Queue × σ
  syncSwap : σ → Except Barrier.Error Unit × σ

namespace Transport
open Barrier

/-- A process on its own. -/
def standalone : Transport Unit where
  role := "standalone"
  syncEvents := fun q s => ((Queue.parse q.render).mapError .queue, s)
  syncSwap := fun s => (.ok (), s)

/-- The server of a cluster. -/
def hub : Transport Hub where
  role := "server"
  syncEvents := Hub.syncEvents
  syncSwap := Hub.syncSwap

/-- A client of a cluster. -/
def member : Transport Member where
  role := "client"
  syncEvents := Member.syncEvents
  syncSwap := Member.syncSwap

/-- Barriers that succeed or fail as a list says, and fail after its end. -/
def scripted : Transport (List Bool) where
  role := "scripted"
  syncEvents := fun q s =>
    (if s.head? = some true then .ok q else .error (.disconnected 0), s.tail)
  syncSwap := fun s =>
    (if s.head? = some true then .ok () else .error (.disconnected 0), s.tail)

end Transport
end Lockstep
