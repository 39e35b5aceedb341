import Lockstep.Barrier.Network

/- Nodes whose barriers take time.

   1. A program makes one `Call` of its node after the other. A call ends in a `Turn`: the frames that its
      barrier took from the peers, in order, and what it gave.
   2. A `Host` is a hub with a call under way. The call takes in what arrived before it, and then looks
      for a frame of its kind at every peer that gave it none yet. Between two looks bytes arrive and
      streams end, at any time, and the hub takes in what arrived from some of its peers; or the time is
      up. A write to a peer neither fails nor waits.
   3. A `Guest` is a member with a call under way. It sends its frame and looks for the answer, and
      between two looks it takes in a chunk of what arrived.
   4. A move that is not possible changes nothing. -/
namespace Lockstep
open Barrier

/-! ## Calls -/

/-- What a program asks of its node. -/
inductive Call where
  | syncEvents (q : Queue)
  | syncSwap

namespace Call

/-- What a hub waits for, from every peer. -/
def requestKind : Call → Frame.Kind
  | syncEvents _ => .events
  | syncSwap => .swapRequest

/-- What a client waits for. -/
def answerKind : Call → Frame.Kind
  | syncEvents _ => .events
  | syncSwap => .swapNow

/-- What a client sends. -/
def request : Call → Frame
  | syncEvents q => .events q.render
  | syncSwap => .swapRequest

/-- What a call gives to a hub that took a frame from every peer, and the bytes that it sends to all of
    them. -/
def respond (frames : List Frame) : Call → Except Error (Option Queue × List UInt8)
  | syncEvents q => (Hub.reply q frames).map fun reply => (some reply.1, reply.2)
  | syncSwap => .ok (none, [Frame.Kind.swapNow.byte])

end Call

/-- A call that ended. -/
structure Turn where
  call : Call
  /-- A frame from each peer, or nothing when the call failed before all of them were there. -/
  taken : List Frame
  outcome : Outcome

/-- The call did not fail. -/
def Turn.Passed (t : Turn) : Prop := t.outcome.isOk = true

instance (t : Turn) : Decidable t.Passed := inferInstanceAs (Decidable (_ = true))

theorem Turn.not_passed_error {c : Call} {taken : List Frame} {e : Error} :
    ¬ (⟨c, taken, .error e⟩ : Turn).Passed := nofun

theorem Turn.not_all_passed {turns : List Turn} {c : Call} {taken : List Frame} {e : Error} :
    ¬ ∀ t ∈ turns ++ [⟨c, taken, .error e⟩], t.Passed := fun h =>
  not_passed_error (h _ (List.mem_append_right _ List.mem_cons_self))

/-- What comes from a peer. -/
inductive News where
  | arrive (bytes : List UInt8)
  | finish

namespace News

def bytes : News → List UInt8
  | arrive bytes => bytes
  | finish => []

/-- The link on which they came. -/
def reach (l : Link) : News → Link
  | arrive bytes => l.arrive bytes
  | finish => l.finish

end News

/-! ## A hub -/

namespace Hub

/-- A look for the next frame of a kind at each link that gave none yet. -/
def fill (want : Frame.Kind) : List (Option Frame) → List Link →
    Except Frame.Error (List (Option Frame)) × List Link
  | [], links => (.ok [], links)
  | slots, [] => (.ok slots, [])
  | some f :: slots, l :: links =>
    match fill want slots links with
    | (.error e, links') => (.error e, l :: links')
    | (.ok slots', links') => (.ok (some f :: slots'), l :: links')
  | none :: slots, l :: links =>
    match l.reader.nextOf want with
    | (.error e, reader) => (.error e, { l with reader } :: links)
    | (.ok slot, reader) =>
      match fill want slots links with
      | (.error e, links') => (.error e, { l with reader } :: links')
      | (.ok slots', links') => (.ok (slot :: slots'), { l with reader } :: links')

/-- The links with what arrived from some peers taken in, up to the first of these whose stream has
    ended, which is named. -/
def takeReady : List Nat → List Link → Option Nat × List Link
  | [], links => (none, links)
  | peer :: ready, links =>
    let links' := links.modify peer Link.takeAll
    if (links[peer]?.map Link.ended).getD false then (some peer, links') else takeReady ready links'

/-- The hub with its links in another state. -/
def withLinks (h : Hub) (links : List Link) : Hub := { h with links }

end Hub

structure Host where
  hub : Hub
  /-- The call under way, with the frame that it took from each peer so far. -/
  pending : Option (Call × List (Option Frame))
  turns : List Turn

namespace Host

/-- A hub without a call under way. -/
def idle (hub : Hub) : Host := ⟨hub, none, []⟩

def start (peers timeout : Nat) : Host := idle (.start peers timeout)

/-- The call under way ends, and the hub is left as it is. -/
def fail (c : Call) (taken : List Frame) (e : Error) (hub : Hub) (h : Host) : Host :=
  ⟨hub, none, h.turns ++ [⟨c, taken, .error e⟩]⟩

/-- The call under way once there is a frame from every peer. -/
def settle (c : Call) (frames : List Frame) (hub : Hub) (h : Host) : Host :=
  match c.respond frames with
  | .error e => h.fail c frames e hub
  | .ok (result, bytes) => ⟨hub.broadcast bytes, none, h.turns ++ [⟨c, frames, .ok result⟩]⟩

/-- A look for what is missing. -/
def look (c : Call) (slots : List (Option Frame)) (hub : Hub) (h : Host) : Host :=
  match Hub.fill c.requestKind slots hub.links with
  | (.error e, links) => h.fail c [] (.frame e) (hub.withLinks links)
  | (.ok slots', links) =>
    match Hub.complete slots' with
    | some frames => h.settle c frames (hub.withLinks links)
    | none => ⟨hub.withLinks links, some (c, slots'), h.turns⟩

inductive Move where
  | news (peer : Nat) (n : News)
  /-- The program makes a call. -/
  | enter (c : Call)
  /-- The hub takes in what arrived from some peers. -/
  | poll (ready : List Nat)
  /-- The time is up. -/
  | expire

/-- The bytes that come from a peer. -/
def Move.bytesFrom (peer : Nat) : Move → List UInt8
  | news peer' n => if peer' = peer then n.bytes else []
  | enter _ | poll _ | expire => []

def move (h : Host) : Move → Host
  | .news peer n => { h with hub := h.hub.onPeer peer fun l => n.reach l }
  | .enter c =>
    match h.pending with
    | some _ => h
    | none =>
      match Hub.takeIn 0 h.hub.links with
      | (some peer, links) => h.fail c [] (.disconnected peer) (h.hub.withLinks links)
      | (none, links) => h.look c (List.replicate links.length none) (h.hub.withLinks links)
  | .poll ready =>
    match h.pending with
    | none => h
    | some (c, slots) =>
      match Hub.takeReady ready h.hub.links with
      | (some peer, links) => h.fail c [] (.disconnected peer) (h.hub.withLinks links)
      | (none, links) => h.look c slots (h.hub.withLinks links)
  | .expire =>
    match h.pending with
    | none => h
    | some (c, _) => h.fail c [] (.timedOut h.hub.timeout) h.hub

def play (h : Host) (moves : List Move) : Host := moves.foldl move h

end Host

/-! ## A client -/

structure Guest where
  member : Member
  /-- The call under way. -/
  pending : Option Call
  turns : List Turn

namespace Guest

/-- A member without a call under way. -/
def idle (m : Member) : Guest := ⟨m, none, []⟩

def start (timeout : Nat) : Guest := idle (.start timeout)

/-- The call under way ends. -/
def settle (c : Call) (taken : List Frame) (o : Outcome) (m : Member) (g : Guest) : Guest :=
  ⟨m, none, g.turns ++ [⟨c, taken, o⟩]⟩

/-- A look for the answer. -/
def look (c : Call) (m : Member) (g : Guest) : Guest :=
  match m.link.reader.nextOf c.answerKind with
  | (.error e, reader) => g.settle c [] (.error (.frame e)) { m with link := { m.link with reader } }
  | (.ok (some f), reader) => g.settle c [f] (outcomeOf f) { m with link := { m.link with reader } }
  | (.ok none, reader) => ⟨{ m with link := { m.link with reader } }, some c, g.turns⟩

inductive Move where
  | news (n : News)
  /-- The program makes a call. -/
  | enter (c : Call)
  /-- The client takes in a chunk. -/
  | read
  /-- The time is up. -/
  | expire

/-- The bytes that come from the server. -/
def Move.bytes : Move → List UInt8
  | news n => n.bytes
  | enter _ | read | expire => []

def move (g : Guest) : Move → Guest
  | .news n => { g with member := { g.member with link := n.reach g.member.link } }
  | .enter c =>
    match g.pending with
    | some _ => g
    | none =>
      match g.member.send c.request with
      | .error e => g.settle c [] (.error e) g.member
      | .ok m => g.look c m
  | .read =>
    match g.pending with
    | none => g
    | some c =>
      if g.member.link.arrived = [] then
        if g.member.link.ended then g.settle c [] (.error (.disconnected 0)) g.member else g
      else g.look c { g.member with link := g.member.link.takeIn Member.chunkSize }
  | .expire =>
    match g.pending with
    | none => g
    | some c => g.settle c [] (.error (.timedOut g.member.timeout)) g.member

def play (g : Guest) (moves : List Move) : Guest := moves.foldl move g

end Guest
end Lockstep
