import Lockstep.Barrier.Party

/- A node at work, one act at a time.

   Between the calls of a node its peers send bytes and end their streams. A run of acts gives what the
   node waited for in every barrier that it passed. -/
namespace Lockstep

/-! ## A hub -/

namespace Hub

inductive Act where
  | arrive (peer : Nat) (bytes : List UInt8)
  | finish (peer : Nat)
  | syncEvents (q : Queue)
  | syncSwap

/-- The bytes that come from a peer. -/
def Act.bytesFrom (peer : Nat) : Act → List UInt8
  | arrive peer' bytes => if peer' = peer then bytes else []
  | finish _ | syncEvents _ | syncSwap => []

def act (h : Hub) : Act → List Frame.Kind × Hub
  | .arrive peer bytes => ([], h.onPeer peer fun l => l.arrive bytes)
  | .finish peer => ([], h.onPeer peer Link.finish)
  | .syncEvents q =>
    match h.syncEvents q with
    | (.ok _, h') => ([.events], h')
    | (.error _, h') => ([], h')
  | .syncSwap =>
    match h.syncSwap with
    | (.ok _, h') => ([.swapRequest], h')
    | (.error _, h') => ([], h')

def actAll (h : Hub) : List Act → List Frame.Kind × Hub
  | [] => ([], h)
  | a :: acts =>
    let (passed, afterAct) := h.act a
    let (more, h') := afterAct.actAll acts
    (passed ++ more, h')

end Hub

/-! ## A client -/

namespace Member

/-- A call of a client sends its frame and then waits for the answer. -/
inductive Act where
  | arrive (bytes : List UInt8)
  | finish
  | send (f : Frame)
  | receiveEvents
  | receiveSwap

/-- The bytes that come from the server. -/
def Act.bytes : Act → List UInt8
  | arrive bytes => bytes
  | finish | send _ | receiveEvents | receiveSwap => []

def act (m : Member) : Act → List Frame.Kind × Member
  | .arrive bytes => ([], { m with link := m.link.arrive bytes })
  | .finish => ([], { m with link := m.link.finish })
  | .send f => ([], (m.send f).toOption.getD m)
  | .receiveEvents =>
    match m.receiveEvents with
    | (.ok _, m') => ([.events], m')
    | (.error _, m') => ([], m')
  | .receiveSwap =>
    match m.receiveSwap with
    | (.ok _, m') => ([.swapNow], m')
    | (.error _, m') => ([], m')

def actAll (m : Member) : List Act → List Frame.Kind × Member
  | [] => ([], m)
  | a :: acts =>
    let (passed, afterAct) := m.act a
    let (more, m') := afterAct.actAll acts
    (passed ++ more, m')

end Member
end Lockstep
