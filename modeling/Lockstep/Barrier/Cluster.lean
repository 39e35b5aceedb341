import Lockstep.Barrier.Hub
import Lockstep.Barrier.Member

/- A server and its clients, joined.

   What one side sends arrives at the other. In a barrier every member sends its frame, the hub takes
   its turn, and then every member reads the answer. -/
namespace Lockstep

structure Cluster where
  hub : Hub
  members : List Member

namespace Cluster
open Barrier

/-- A hub with as many members as it has peers. -/
def start (members timeout : Nat) : Cluster :=
  ⟨.start members timeout, List.replicate members (.start timeout)⟩

/-- What was sent on a link after it had sent `before`. -/
def sentSince (before after : Link) : List UInt8 := after.sent.drop before.sent.length

/-- The hub's links after its members went from one state to another: what they sent arrives. -/
def deliverUp (before after : List Member) (links : List Link) : List Link :=
  ((before.zip after).zip links).map fun p => p.2.arrive (sentSince p.1.1.link p.1.2.link)

/-- The members after the hub's links went from one state to another: what it sent arrives. -/
def deliverDown (before after : List Link) (members : List Member) : List Member :=
  ((before.zip after).zip members).map fun p =>
    { p.2 with link := p.2.link.arrive (sentSince p.1.1 p.1.2) }

/-- Members after each sent its frame; one that is refused sends nothing. -/
def sendAll (members : List Member) (frames : List Frame) : List Member :=
  (members.zip frames).map fun p => (p.1.send p.2).toOption.getD p.1

/-- An events barrier with the queue of the hub's node and those of the members' nodes: the queue of
    each node, the hub's first. -/
def syncEvents (c : Cluster) (q : Queue) (qs : List Queue) :
    List (Except Error Queue) × Cluster :=
  let asked := sendAll c.members (qs.map fun q => .events q.render)
  let heard : Hub := { c.hub with links := deliverUp c.members asked c.hub.links }
  let (r, hub) := heard.syncEvents q
  let done := (deliverDown heard.links hub.links asked).map Member.receiveEvents
  (r :: done.map Prod.fst, ⟨hub, done.map Prod.snd⟩)

/-- A swap barrier of all nodes. -/
def syncSwap (c : Cluster) : List (Except Error Unit) × Cluster :=
  let asked := sendAll c.members (c.members.map fun _ => .swapRequest)
  let heard : Hub := { c.hub with links := deliverUp c.members asked c.hub.links }
  let (r, hub) := heard.syncSwap
  let done := (deliverDown heard.links hub.links asked).map Member.receiveSwap
  (r :: done.map Prod.fst, ⟨hub, done.map Prod.snd⟩)

/-- A frame, with the queues of all nodes in each frame: what both barriers give to every node. -/
def playFrame (own : Nat → Queue) (clients : List (Nat → Queue)) (k : Nat) (c : Cluster) :
    (List (Except Error Queue) × List (Except Error Unit)) × Cluster :=
  let (events, c') := c.syncEvents (own k) (clients.map fun queues => queues k)
  let (swaps, c'') := c'.syncSwap
  ((events, swaps), c'')

/-- The first frames, one after the other. -/
def play (own : Nat → Queue) (clients : List (Nat → Queue)) (c : Cluster) :
    Nat → List (List (Except Error Queue) × List (Except Error Unit)) × Cluster
  | 0 => ([], c)
  | k + 1 =>
    let (before, c') := play own clients c k
    let (outcomes, c'') := c'.playFrame own clients k
    (before ++ [outcomes], c'')

end Cluster
end Lockstep
