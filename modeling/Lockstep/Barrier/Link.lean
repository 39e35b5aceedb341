import Lockstep.Frame.Reader

/- One end of a connection.

   A link holds the bytes that arrived from the peer and were not taken in yet, the reader that they
   are fed to, whether the peer has ended its stream, and all bytes sent to the peer. `nextOf` looks
   for the next frame of a kind: frames of other kinds before it are dropped, frames after it stay
   for later. -/
namespace Lockstep

/-- The next frame of a kind among those that are complete. -/
def Reader.nextOf (want : Frame.Kind) (r : Reader) :
    Except Frame.Error (Option Frame) × Reader :=
  match _h : r.next with
  | (none, r') => (.ok none, r')
  | (some (.error e), r') => (.error e, r')
  | (some (.ok f), r') => if f.kind = want then (.ok (some f), r') else nextOf want r'
termination_by r.held.length
decreasing_by exact Reader.length_next_lt _h

/-- The frames that `nextOf` passes over. -/
def Reader.passedBy (want : Frame.Kind) (r : Reader) : List Frame :=
  match _h : r.next with
  | (some (.ok f), r') => if f.kind = want then [] else f :: passedBy want r'
  | _ => []
termination_by r.held.length
decreasing_by exact Reader.length_next_lt _h

structure Link where
  arrived : List UInt8
  reader : Reader
  ended : Bool
  sent : List UInt8
deriving DecidableEq, Repr

namespace Link

/-- A connection on which nothing has happened. -/
def fresh : Link := ⟨[], .empty, false, []⟩

/-- More bytes from the peer. -/
def arrive (l : Link) (bytes : List UInt8) : Link := { l with arrived := l.arrived ++ bytes }

/-- The end of the peer's stream. -/
def finish (l : Link) : Link := { l with ended := true }

/-- Bytes sent to the peer. -/
def send (l : Link) (bytes : List UInt8) : Link := { l with sent := l.sent ++ bytes }

/-- The first `n` bytes that arrived, taken in. -/
def takeIn (l : Link) (n : Nat) : Link :=
  { l with arrived := l.arrived.drop n, reader := l.reader.feed (l.arrived.take n) }

/-- All bytes that arrived, taken in. -/
def takeAll (l : Link) : Link := l.takeIn l.arrived.length

@[simp] theorem arrived_takeAll (l : Link) : l.takeAll.arrived = [] := by
  simp [takeAll, takeIn]

@[simp] theorem sent_takeIn (l : Link) (n : Nat) : (l.takeIn n).sent = l.sent := rfl

end Link
end Lockstep
