import Lockstep.Barrier.Hub
import Lockstep.Barrier.Member

/- A cluster at work, piece by piece.

   1. Every node goes through the same frames. A frame is an events barrier, to which each node
      brings its queue of that frame, and a swap barrier; barriers are numbered from zero, two to a
      frame. A client sends its request and waits for the answer. The hub takes one request from
      each client, in whatever order they come, and answers all of them.
   2. A `Conn` is one connection, with the client at its far end. Bytes that were sent are under way,
      among them those that the sender still has to write; then they have arrived, and then they are
      held by a reader. Any number of them moves on at a time, so a frame comes in any pieces.
   3. A `Net` is a hub and its connections. `Net.Step` is one step of one node or of the bytes on one
      connection. A node that waits for more than there is has no step: no stream ends, and no barrier
      has a limit of time.
   4. A connection logs the frames that a reader passed over. -/
namespace Lockstep

/-- What a barrier gives: an events barrier the queue that its node goes on with. -/
abbrev Outcome := Except Barrier.Error (Option Queue)

namespace Barrier

/-- The kind of frame that the hub waits for in a barrier. -/
def requestKind (barrier : Nat) : Frame.Kind := if barrier % 2 = 0 then .events else .swapRequest

/-- The kind of frame that a client waits for in a barrier. -/
def answerKind (barrier : Nat) : Frame.Kind := if barrier % 2 = 0 then .events else .swapNow

/-- What a client sends in a barrier, given its queue in each frame. -/
def request (queues : Nat → Queue) (barrier : Nat) : Frame :=
  if barrier % 2 = 0 then .events (queues (barrier / 2)).render else .swapRequest

/-- What an answer gives to the client that reads it. -/
def outcomeOf : Frame → Outcome
  | .events text => ((Queue.parse text).mapError .queue).map some
  | _ => .ok none

/-- What a barrier gives to the hub, and the bytes that it sends to every client. -/
def respond (queues : Nat → Queue) (barrier : Nat) (requests : List Frame) :
    Except Error (Option Queue × List UInt8) :=
  if barrier % 2 = 0 then
    (Hub.reply (queues (barrier / 2)) requests).map fun reply => (some reply.1, reply.2)
  else .ok (none, [Frame.Kind.swapNow.byte])

end Barrier

/-! ## One connection -/

structure Conn where
  /-- The client's queue in each frame. -/
  queues : Nat → Queue
  /-- The client's end. -/
  far : Link
  /-- Whether the client sent its request and waits for the answer. -/
  asked : Bool
  /-- What the client's barriers gave so far. -/
  results : List Outcome
  /-- Bytes on their way to the hub. -/
  up : List UInt8
  /-- Bytes on their way to the client. -/
  down : List UInt8
  /-- The hub's end. -/
  near : Link
  /-- The request that the hub took in its barrier. -/
  slot : Option Frame
  /-- Frames that either end read and passed over. -/
  dropped : List Frame

namespace Conn
open Barrier

/-- A connection on which nothing has happened. -/
def start (queues : Nat → Queue) : Conn := ⟨queues, .fresh, false, [], [], [], .fresh, none, []⟩

/-- The client's barrier. -/
def round (c : Conn) : Nat := c.results.length

/-- The client's barrier ends. -/
def settle (c : Conn) (o : Outcome) : Conn :=
  { c with results := c.results ++ [o], asked := false }

@[simp] theorem round_settle (c : Conn) (o : Outcome) : (c.settle o).round = c.round + 1 := by
  rw [round, settle, List.length_append]
  rfl

/-- The client starts its barrier: it sends the request. -/
def ask (c : Conn) : Conn :=
  match (request c.queues c.round).encode with
  | .error e => c.settle (.error (.frame e))
  | .ok bytes => { c with far := c.far.send bytes, up := c.up ++ bytes, asked := true }

/-- `n` bytes arrive at the hub. -/
def carryUp (n : Nat) (c : Conn) : Conn :=
  { c with up := c.up.drop n, near := c.near.arrive (c.up.take n) }

/-- `n` bytes arrive at the client. -/
def carryDown (n : Nat) (c : Conn) : Conn :=
  { c with down := c.down.drop n, far := c.far.arrive (c.down.take n) }

/-- The hub takes in `n` bytes. -/
def takeUp (n : Nat) (c : Conn) : Conn := { c with near := c.near.takeIn n }

/-- The client takes in `n` bytes. -/
def takeDown (n : Nat) (c : Conn) : Conn := { c with far := c.far.takeIn n }

/-- The hub's reader after a look for a frame. -/
def heard (want : Frame.Kind) (reader : Reader) (c : Conn) : Conn :=
  { c with
    near := { c.near with reader }
    dropped := c.dropped ++ c.near.reader.passedBy want }

/-- The client's reader after a look for a frame. -/
def read (want : Frame.Kind) (reader : Reader) (c : Conn) : Conn :=
  { c with
    far := { c.far with reader }
    dropped := c.dropped ++ c.far.reader.passedBy want }

/-- The hub's barrier ends without an answer. -/
def clear (c : Conn) : Conn := { c with slot := none }

/-- The hub's barrier ends with an answer. -/
def answer (bytes : List UInt8) (c : Conn) : Conn :=
  { c with slot := none, near := c.near.send bytes, down := c.down ++ bytes }

/-- A step on one connection, with the number of all barriers and that of the hub's barrier. -/
inductive Step (last round : Nat) : Conn → Conn → Prop
  | ask {c : Conn} (hr : c.round < last) (ha : c.asked = false) : Step last round c c.ask
  | carryUp {c : Conn} {n : Nat} (hn : 0 < n) (hl : n ≤ c.up.length) :
    Step last round c (c.carryUp n)
  | carryDown {c : Conn} {n : Nat} (hn : 0 < n) (hl : n ≤ c.down.length) :
    Step last round c (c.carryDown n)
  | takeUp {c : Conn} {n : Nat} (hr : round < last) (hn : 0 < n) (hl : n ≤ c.near.arrived.length) :
    Step last round c (c.takeUp n)
  | takeDown {c : Conn} {n : Nat} (ha : c.asked = true) (hn : 0 < n) (hl : n ≤ c.far.arrived.length) :
    Step last round c (c.takeDown n)
  /-- The hub takes a request. -/
  | hear {c : Conn} {f : Frame} {reader : Reader} (hr : round < last) (hs : c.slot = none)
    (h : c.near.reader.nextOf (requestKind round) = (.ok (some f), reader)) :
    Step last round c { c.heard (requestKind round) reader with slot := some f }
  /-- The hub reads something and finds no request. -/
  | miss {c : Conn} {reader : Reader} (hr : round < last) (hs : c.slot = none)
    (h : c.near.reader.nextOf (requestKind round) = (.ok none, reader))
    (hl : reader.held.length < c.near.reader.held.length) :
    Step last round c (c.heard (requestKind round) reader)
  /-- The client reads its answer. -/
  | read {c : Conn} {f : Frame} {reader : Reader} (hr : c.round < last) (ha : c.asked = true)
    (h : c.far.reader.nextOf (answerKind c.round) = (.ok (some f), reader)) :
    Step last round c ((c.read (answerKind c.round) reader).settle (outcomeOf f))
  /-- The client reads something and finds no answer. -/
  | skip {c : Conn} {reader : Reader} (ha : c.asked = true)
    (h : c.far.reader.nextOf (answerKind c.round) = (.ok none, reader))
    (hl : reader.held.length < c.far.reader.held.length) :
    Step last round c (c.read (answerKind c.round) reader)
  /-- The client reads what is no frame. -/
  | fail {c : Conn} {e : Frame.Error} {reader : Reader} (hr : c.round < last) (ha : c.asked = true)
    (h : c.far.reader.nextOf (answerKind c.round) = (.error e, reader)) :
    Step last round c ((c.read (answerKind c.round) reader).settle (.error (.frame e)))

end Conn

/-! ## All connections -/

structure Net where
  /-- The hub's queue in each frame. -/
  queues : Nat → Queue
  /-- How many frames there are. -/
  frames : Nat
  /-- What the hub's barriers gave so far. -/
  results : List Outcome
  conns : List Conn

namespace Net
open Barrier

/-- A hub and its clients, connected. -/
def start (queues : Nat → Queue) (clients : List (Nat → Queue)) (frames : Nat) : Net :=
  ⟨queues, frames, [], clients.map .start⟩

/-- The number of all barriers. -/
def last (n : Net) : Nat := 2 * n.frames

/-- The hub's barrier. -/
def round (n : Net) : Nat := n.results.length

/-- The hub's barrier fails. -/
def fail (e : Error) (n : Net) : Net :=
  { n with results := n.results ++ [.error e], conns := n.conns.map .clear }

/-- The hub's barrier once there is a request from every client. -/
def turn (requests : List Frame) (n : Net) : Net :=
  match respond n.queues n.round requests with
  | .error e => n.fail e
  | .ok (result, bytes) =>
    { n with results := n.results ++ [.ok result], conns := n.conns.map (.answer bytes) }

inductive Step : Net → Net → Prop
  | conn {n : Net} {before after : List Conn} {c c' : Conn} (hn : n.conns = before ++ c :: after)
    (h : c.Step n.last n.round c') : Step n { n with conns := before ++ c' :: after }
  | turn {n : Net} {requests : List Frame} (hr : n.round < n.last)
    (h : Hub.complete (n.conns.map Conn.slot) = some requests) : Step n (n.turn requests)
  /-- The hub reads what is no frame. -/
  | fail {n : Net} {before after : List Conn} {c : Conn} {e : Frame.Error} {reader : Reader}
    (hr : n.round < n.last) (hn : n.conns = before ++ c :: after) (hs : c.slot = none)
    (h : c.near.reader.nextOf (requestKind n.round) = (.error e, reader)) :
    Step n (({ n with conns := before ++ c.heard (requestKind n.round) reader :: after } : Net).fail
      (.frame e))

/-- The states to which steps lead. -/
inductive Reach (n : Net) : Net → Prop
  | refl : Reach n n
  | step {m m' : Net} (h : Reach n m) (hs : Step m m') : Reach n m'

end Net
end Lockstep
