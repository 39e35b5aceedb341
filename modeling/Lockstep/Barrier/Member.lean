import Lockstep.Barrier.Error
import Lockstep.Barrier.Link
import Lockstep.Queue.Text

/- A client of a cluster.

   1. A `Member` has one link, to the server. It sends its frame first and then waits for the
      answer; the frame stays sent when the wait fails.
   2. `wait` reads frames that were taken in before it takes in more, a chunk at a time, and notices
      the end of the stream only when it needs more than there is. Without any time to wait it takes
      in nothing. -/
namespace Lockstep

structure Member where
  link : Link
  /-- How long a barrier may take, in milliseconds. -/
  timeout : Nat
deriving DecidableEq, Repr

namespace Member
open Barrier

/-- A member that has just connected. -/
def start (timeout : Nat) : Member := ⟨.fresh, timeout⟩

/-- How many bytes are taken in at a time. -/
def chunkSize : Nat := 64 * 1024

/-- The next frame of a kind, from what has arrived. -/
def waitOn (want : Frame.Kind) (timeout : Nat) (l : Link) : Except Error Frame × Link :=
  match l.reader.nextOf want with
  | (.error e, reader) => (.error (.frame e), { l with reader })
  | (.ok (some f), reader) => (.ok f, { l with reader })
  | (.ok none, reader) =>
    if timeout = 0 then (.error (.timedOut timeout), { l with reader })
    else if _h : l.arrived = [] then
      (.error (if l.ended then .disconnected 0 else .timedOut timeout), { l with reader })
    else waitOn want timeout ({ l with reader }.takeIn chunkSize)
termination_by l.arrived.length
decreasing_by
  have := List.length_pos_iff.2 _h
  simp only [Link.takeIn, List.length_drop, chunkSize]
  omega

/-- The next frame of a kind. -/
def wait (want : Frame.Kind) (m : Member) : Except Error Frame × Member :=
  let (r, link) := waitOn want m.timeout m.link
  (r, { m with link })

/-- A frame sent to the server. -/
def send (m : Member) (f : Frame) : Except Error Member :=
  match f.encode with
  | .error e => .error (.frame e)
  | .ok bytes => .ok { m with link := m.link.send bytes }

/-- The second half of the events barrier: the merged queue, once the server has sent it. -/
def receiveEvents (m : Member) : Except Error Queue × Member :=
  match m.wait .events with
  | (.error e, m') => (.error e, m')
  | (.ok (.events text), m') => ((Queue.parse text).mapError .queue, m')
  | (.ok _, m') => (.ok .empty, m')

/-- The events barrier, with the queue of this node. -/
def syncEvents (q : Queue) (m : Member) : Except Error Queue × Member :=
  match m.send (.events q.render) with
  | .error e => (.error e, m)
  | .ok m' => m'.receiveEvents

/-- The second half of the swap barrier: the release, once the server has sent it. -/
def receiveSwap (m : Member) : Except Error Unit × Member :=
  match m.wait .swapNow with
  | (.error e, m') => (.error e, m')
  | (.ok _, m') => (.ok (), m')

/-- The swap barrier. -/
def syncSwap (m : Member) : Except Error Unit × Member :=
  match m.send .swapRequest with
  | .error e => (.error e, m)
  | .ok m' => m'.receiveSwap

end Member
end Lockstep
