import Lockstep.Barrier.Error
import Lockstep.Barrier.Link
import Lockstep.Queue.Text

/- The server of a cluster.

   1. A `Hub` has a link to each peer, in the order in which they connected. Bytes arrive and streams
      end between barriers; a barrier sees what has arrived before it.
   2. `wait` takes in what arrived and then one frame of a kind from every peer. A peer whose stream
      has ended fails the barrier before any frame is read. A frame that cannot be read fails it, and
      so does a peer without a frame of the kind; frames that were read are lost then.
   3. `syncEvents` merges the queues of the peers, in order, behind the local one and sends the result
      to every peer; `syncSwap` answers one request from every peer with one release. A barrier that
      fails sends nothing. -/
namespace Lockstep

structure Hub where
  links : List Link
  /-- How long a barrier may take, in milliseconds. -/
  timeout : Nat
deriving DecidableEq, Repr

namespace Hub
open Barrier

/-- A hub with a number of peers. -/
def start (peers timeout : Nat) : Hub := ⟨List.replicate peers .fresh, timeout⟩

/-- What a peer does between barriers. -/
def onPeer (h : Hub) (peer : Nat) (f : Link → Link) : Hub := { h with links := h.links.modify peer f }

/-- Where one element of a list changes, one element of each of its views does. -/
theorem map_modify {α β : Type} {f : α → α} {view : α → β} {c : β → β}
    (h : ∀ a, view (f a) = c (view a)) (as : List α) (index : Nat) :
    (as.modify index f).map view = (as.map view).modify index c := by
  refine List.ext_getElem? fun i => ?_
  rw [List.getElem?_map, List.getElem?_modify, List.getElem?_modify, List.getElem?_map]
  cases as[i]? with
  | none => rfl
  | some a =>
    by_cases hi : index = i
    · simp only [hi, if_true, Option.map_some, Option.map_eq_map, h]
    · simp only [hi, if_false, Option.map_some, Option.map_eq_map]

/-- The links with what arrived taken in, up to the first whose stream has ended, which is named;
    links are counted from `peer` on. -/
def takeIn (peer : Nat) : List Link → Option Nat × List Link
  | [] => (none, [])
  | l :: links =>
    if l.ended then (some peer, l.takeAll :: links)
    else
      let (ended, links') := takeIn (peer + 1) links
      (ended, l.takeAll :: links')

/-- The next frame of a kind from each link that has one. -/
def collect (want : Frame.Kind) : List Link →
    Except Frame.Error (List (Option Frame)) × List Link
  | [] => (.ok [], [])
  | l :: links =>
    match l.reader.nextOf want with
    | (.error e, reader) => (.error e, { l with reader } :: links)
    | (.ok f, reader) =>
      match collect want links with
      | (.error e, links') => (.error e, { l with reader } :: links')
      | (.ok fs, links') => (.ok (f :: fs), { l with reader } :: links')

/-- The frames, when every link gave one. -/
def complete : List (Option Frame) → Option (List Frame)
  | [] => some []
  | none :: _ => none
  | some f :: fs => (complete fs).map (f :: ·)

/-- One frame of a kind from every peer. -/
def wait (want : Frame.Kind) (h : Hub) : Except Error (List Frame) × Hub :=
  match takeIn 0 h.links with
  | (some peer, links) => (.error (.disconnected peer), { h with links })
  | (none, links) =>
    match collect want links with
    | (.error e, links') => (.error (.frame e), { h with links := links' })
    | (.ok fs, links') =>
      match complete fs with
      | some frames => (.ok frames, { h with links := links' })
      | none => (.error (.timedOut h.timeout), { h with links := links' })

/-- The same bytes sent to every peer. -/
def broadcast (h : Hub) (bytes : List UInt8) : Hub :=
  { h with links := h.links.map fun l => l.send bytes }

/-- A queue with those of the frames merged into it. -/
def mergeFrames (q : Queue) : List Frame → Except Queue.Error Queue
  | [] => .ok q
  | .events text :: frames =>
    match q.mergeText text with
    | .error e => .error e
    | .ok q' => mergeFrames q' frames
  | _ :: frames => mergeFrames q frames

/-- The merged queue of some frames as every node will read it, and the bytes that carry it. -/
def reply (q : Queue) (frames : List Frame) : Except Error (Queue × List UInt8) :=
  match mergeFrames q frames with
  | .error e => .error (.queue e)
  | .ok merged =>
    match Queue.parse merged.render with
    | .error e => .error (.queue e)
    | .ok result =>
      match (Frame.events merged.render).encode with
      | .error e => .error (.frame e)
      | .ok bytes => .ok (result, bytes)

/-- The events barrier, with the queue of this node. -/
def syncEvents (q : Queue) (h : Hub) : Except Error Queue × Hub :=
  match wait .events h with
  | (.error e, h') => (.error e, h')
  | (.ok frames, h') =>
    match reply q frames with
    | .error e => (.error e, h')
    | .ok (result, bytes) => (.ok result, h'.broadcast bytes)

/-- The swap barrier. -/
def syncSwap (h : Hub) : Except Error Unit × Hub :=
  match wait .swapRequest h with
  | (.error e, h') => (.error e, h')
  | (.ok _, h') => (.ok (), h'.broadcast [Frame.Kind.swapNow.byte])

end Hub
end Lockstep
