import Lockstep.Barrier.Hub
import Lockstep.Barrier.Member
import Lockstep.Frame.Stream

/- One node among peers that may do anything.

   1. A `Port` is a node's end of one connection. It keeps a record: all bytes that arrived, and all
      that its reader gave, each with the number of the barrier that took it.
   2. A `Party` is a hub with a port to every client, or a client with a port to the hub. It is in one
      barrier at a time, where it takes one frame of a kind from every port. Then it passes the barrier,
      a hub with an answer, or it leaves the barrier for whatever reason.
   3. `Party.Step` is one step of the party, or of its peers, who send any bytes and end their streams
      at any time. Bytes are taken in any number at a time. The first ports get a hub's answer, and all
      of them when nothing goes wrong. -/
namespace Lockstep

/-! ## Ports -/

/-- What a reader gave, and the number of the barrier that took it. -/
structure Reading where
  result : Except Frame.Error Frame
  takenBy : Option Nat

/-- The barrier that took a reading, with the kind of the frame. -/
def Reading.taking? : Reading → Option (Nat × Frame.Kind)
  | ⟨.ok f, some barrier⟩ => some (barrier, f.kind)
  | _ => none

/-- Whether a result is a frame of a kind. -/
def Frame.Kind.gaveBy (k : Frame.Kind) : Except Frame.Error Frame → Bool
  | .ok f => f.kind = k
  | .error _ => false

structure Port where
  link : Link
  /-- All bytes that arrived. -/
  received : List UInt8
  /-- All that the reader gave. -/
  readings : List Reading
  /-- The frame that the barrier under way took. -/
  slot : Option Frame

inductive Role where
  | hub | member
deriving DecidableEq, Repr

namespace Port

/-- A connection on which nothing has happened. -/
def fresh : Port := ⟨.fresh, [], [], none⟩

/-- More bytes from the peer. -/
def arrive (bytes : List UInt8) (p : Port) : Port :=
  { p with link := p.link.arrive bytes, received := p.received ++ bytes }

/-- The end of the peer's stream. -/
def finish (p : Port) : Port := { p with link := p.link.finish }

/-- The first `n` bytes that arrived, taken in. -/
def takeIn (n : Nat) (p : Port) : Port := { p with link := p.link.takeIn n }

/-- Bytes sent to the peer. -/
def send (bytes : List UInt8) (p : Port) : Port := { p with link := p.link.send bytes }

/-- The barrier ends. -/
def clear (p : Port) : Port := { p with slot := none }

/-- The port after its reader gave a result, with the reader as it is then. A frame of the wanted kind
    is taken by the barrier, and anything else is passed over. -/
def note (want : Frame.Kind) (barrier : Nat) (result : Except Frame.Error Frame)
    (reader : Reader) (p : Port) : Port :=
  { p with
    link := { p.link with reader }
    readings := p.readings ++ [⟨result, if want.gaveBy result then some barrier else none⟩]
    slot := if want.gaveBy result then result.toOption else p.slot }

/-- The frames of a kind that were read so far. -/
def decoded (k : Frame.Kind) (p : Port) : Nat := p.readings.countP fun r => k.gaveBy r.result

/-- The barriers that took a reading each, in order, with the kinds of the frames. -/
def takings (p : Port) : List (Nat × Frame.Kind) := p.readings.filterMap Reading.taking?

/-- The frames of a kind that the bytes sent to the peer make up. -/
def sentOf (k : Frame.Kind) (p : Port) : Nat := (Reader.mk p.link.sent).drain.1.countP k.gaveBy

/-- A step on one port of a party, with what the party's barrier waits for and the number of that
    barrier. -/
inductive Step (role : Role) (want : Option Frame.Kind) (barrier : Nat) : Port → Port → Prop
  | arrive {p : Port} (bytes : List UInt8) : Step role want barrier p (p.arrive bytes)
  | finish {p : Port} : Step role want barrier p p.finish
  | takeIn {p : Port} (n : Nat) : Step role want barrier p (p.takeIn n)
  /-- A client sends a frame. -/
  | request {p : Port} {f : Frame} {bytes : List UInt8} (hr : role = .member)
    (hf : f.encode = .ok bytes) : Step role want barrier p (p.send bytes)
  /-- The reader gives nothing. -/
  | idle {p : Port} {reader : Reader} (h : p.link.reader.next = (none, reader)) :
    Step role want barrier p { p with link := { p.link with reader } }
  /-- The reader gives a frame. -/
  | hear {p : Port} {k : Frame.Kind} {f : Frame} {reader : Reader} (hw : want = some k)
    (hs : p.slot = none) (h : p.link.reader.next = (some (.ok f), reader)) :
    Step role want barrier p (p.note k barrier (.ok f) reader)

end Port

/-! ## Parties -/

/-- What a party of a role waits for. -/
def Role.waits : Role → Frame.Kind → Prop
  | .hub, k => k = .events ∨ k = .swapRequest
  | .member, k => k = .events ∨ k = .swapNow

/-- The bytes with which a party passes a barrier, given what it waited for and the frames that it
    took. A hub answers queues with the merged one and requests with a release. -/
def Role.Answers : Role → Frame.Kind → List Frame → List UInt8 → Prop
  | .hub, .events, frames, bytes => ∃ q result, Hub.reply q frames = .ok (result, bytes)
  | .hub, _, _, bytes => bytes = [Frame.Kind.swapNow.byte]
  | .member, _, _, bytes => bytes = []

structure Party where
  ports : List Port
  /-- What the barrier under way waits for. -/
  want : Option Frame.Kind
  /-- How many barriers ended; barriers are numbered from zero. -/
  ended : Nat
  /-- The barriers that were passed, each with what it waited for. -/
  passed : List (Nat × Frame.Kind)

namespace Party

/-- A party that has just connected to a number of peers. -/
def start (peers : Nat) : Party := ⟨List.replicate peers .fresh, none, 0, []⟩

/-- The barrier under way begins. -/
def enter (k : Frame.Kind) (s : Party) : Party := { s with want := some k }

/-- The barrier under way ends, and its frames are lost. -/
def leave (s : Party) : Party :=
  { s with ports := s.ports.map .clear, want := none, ended := s.ended + 1 }

/-- The barrier under way is passed, and the first ports get the answer. -/
def pass (k : Frame.Kind) (bytes : List UInt8) (reached : Nat) (s : Party) : Party :=
  { s with
    ports := (s.ports.take reached).map (fun p => (p.send bytes).clear) ++
      (s.ports.drop reached).map .clear
    want := none
    ended := s.ended + 1
    passed := s.passed ++ [(s.ended, k)] }

inductive Step (role : Role) : Party → Party → Prop
  | port {s : Party} {before after : List Port} {p p' : Port} (hp : s.ports = before ++ p :: after)
    (h : p.Step role s.want s.ended p') : Step role s { s with ports := before ++ p' :: after }
  | enter {s : Party} {k : Frame.Kind} (hw : s.want = none) (hk : role.waits k) :
    Step role s (s.enter k)
  /-- A port's reader gives an error, which ends the barrier. -/
  | refuse {s : Party} {before after : List Port} {p : Port} {k : Frame.Kind} {e : Frame.Error}
    {reader : Reader} (hw : s.want = some k) (hp : s.ports = before ++ p :: after)
    (hs : p.slot = none) (h : p.link.reader.next = (some (.error e), reader)) :
    Step role s
      ({ s with ports := before ++ p.note k s.ended (.error e) reader :: after } : Party).leave
  /-- The time is up, a stream has ended, or what was taken cannot be merged. -/
  | leave {s : Party} {k : Frame.Kind} (hw : s.want = some k) : Step role s s.leave
  | pass {s : Party} {k : Frame.Kind} {frames : List Frame} {bytes : List UInt8} (reached : Nat)
    (hw : s.want = some k) (hc : Hub.complete (s.ports.map Port.slot) = some frames)
    (ha : role.Answers k frames bytes) : Step role s (s.pass k bytes reached)

/-- The states to which steps lead. -/
inductive Reach (role : Role) (s : Party) : Party → Prop
  | refl : Reach role s s
  | step {s' s'' : Party} (h : Reach role s s') (hs : Step role s' s'') : Reach role s s''

/-- How many barriers that waited for a kind were passed. -/
def passedOf (k : Frame.Kind) (s : Party) : Nat := s.passed.countP fun b => b.2 = k

end Party
end Lockstep
