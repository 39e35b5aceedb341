import Lockstep.Barrier.Cluster
import Lockstep.Proofs.Barrier.Phase
import Lockstep.Proofs.Barrier.Reply

/- The barriers of a cluster as calls, one after the other.

   1. A call that waits takes the one frame that its link has to give, however much of that the reader
      holds already (`Member.waitOn_of_unread`, `Hub.wait_of_unread`).
   2. A cluster is at rest (`Cluster.AtRest`) when its links are open and all that was sent on them was
      read. A barrier of all nodes leaves a cluster at rest, and gives every node what is agreed
      (`AtRest.syncEvents`, `AtRest.syncSwap`).
   3. So all frames, played one after the other, give every node what is agreed (`play_eq`). -/
namespace Lockstep
open Barrier

/-! ## Waiting -/

/-- A link on which everything was read. -/
def Link.emptied (l : Link) : Link := { l with arrived := [], reader := ⟨[]⟩ }

/-- A member that waits takes the frame that its link has to give. -/
theorem Member.waitOn_of_unread {f : Frame} {timeout : Nat} (ht : 0 < timeout) (l : Link)
    (h : f.encode = .ok (l.unread [])) :
    waitOn f.kind timeout l = (.ok f, l.emptied) := by
  have hlook := (Link.look_of_unread h rfl).2
  rw [List.append_nil] at hlook
  rw [waitOn, hlook]
  by_cases harrived : l.arrived = []
  · simp only [harrived, if_true, Link.emptied]
  · simp only [if_neg harrived, if_neg (Nat.ne_of_gt ht), dif_neg harrived]
    exact waitOn_of_unread ht (l.takeIn chunkSize) (by rwa [Link.unread_takeIn])
termination_by l.arrived.length
decreasing_by
  have := List.length_pos_iff.2 harrived
  simp only [Link.takeIn, List.length_drop, chunkSize]
  omega

namespace Hub

theorem takeIn_of_open : ∀ {links : List Link} (peer : Nat), (∀ l ∈ links, l.ended = false) →
    takeIn peer links = (none, links.map Link.takeAll)
  | [], _, _ => rfl
  | l :: links, peer, h => by
    have hrest := takeIn_of_open (peer + 1) fun l' hl' => h l' (List.mem_cons_of_mem l hl')
    rw [takeIn, h l List.mem_cons_self, hrest]
    rfl

theorem complete_eq_some : ∀ {slots : List (Option Frame)} {frames : List Frame},
    complete slots = some frames → slots = frames.map some
  | [], _, h => by
    cases h
    rfl
  | none :: _, _, h => by cases h
  | some f :: slots, frames, h => by
    obtain ⟨rest, hrest, rfl⟩ := Option.map_eq_some_iff.1 h
    rw [complete_eq_some hrest]
    rfl

theorem complete_map_some : ∀ frames : List Frame, complete (frames.map some) = some frames
  | [] => rfl
  | f :: frames => by
    rw [List.map_cons, complete, complete_map_some frames]
    rfl

/-- One frame is collected from every link that holds the bytes of one. -/
theorem collect_of_held {want : Frame.Kind} : ∀ {ps : List (Link × Frame)},
    (∀ p ∈ ps, p.1.arrived = [] ∧ p.2.encode = .ok (p.1.unread []) ∧ p.2.kind = want) →
    collect want (ps.map Prod.fst) =
      (.ok ((ps.map Prod.snd).map some), ps.map fun p => { p.1 with reader := ⟨[]⟩ })
  | [], _ => rfl
  | p :: ps, h => by
    obtain ⟨harrived, hencode, hkind⟩ := h p List.mem_cons_self
    have hlook := (Link.look_of_unread hencode hkind).2
    rw [harrived, if_pos (List.append_nil [])] at hlook
    have hrest := collect_of_held fun p' hp' => h p' (List.mem_cons_of_mem p hp')
    simp only [List.map_cons, collect, hlook, hrest]

/-- A hub that waits takes the frame that each of its links has to give. -/
theorem wait_of_unread (want : Frame.Kind) {h : Hub} (ps : List (Link × Frame))
    (hl : h.links = ps.map Prod.fst)
    (hp : ∀ p ∈ ps, p.1.ended = false ∧ p.2.encode = .ok (p.1.unread []) ∧ p.2.kind = want) :
    h.wait want = (.ok (ps.map Prod.snd),
      { h with links := ps.map fun p => p.1.emptied }) := by
  have hopen : ∀ l ∈ ps.map Prod.fst, l.ended = false := by
    intro l hmem
    obtain ⟨p, hp', rfl⟩ := List.mem_map.1 hmem
    exact (hp p hp').1
  have htaken : (ps.map Prod.fst).map Link.takeAll =
      (ps.map fun p => (p.1.takeAll, p.2)).map Prod.fst := by
    rw [List.map_map, List.map_map]
    rfl
  have hcollect : collect want ((ps.map fun p => (p.1.takeAll, p.2)).map Prod.fst) = _ :=
    collect_of_held fun p hmem => by
      obtain ⟨p', hp', rfl⟩ := List.mem_map.1 hmem
      obtain ⟨-, hencode, hkind⟩ := hp p' hp'
      exact ⟨Link.arrived_takeAll p'.1, by rwa [Link.takeAll, Link.unread_takeIn], hkind⟩
  simp only [wait, hl, takeIn_of_open 0 hopen, htaken, hcollect, complete_map_some]
  rw [List.map_map, List.map_map]
  refine congrArg (fun links => (_, { h with links })) (List.map_congr_left fun p _ => ?_)
  exact congrArg (fun arrived => Link.mk arrived ⟨[]⟩ p.1.ended p.1.sent) (Link.arrived_takeAll p.1)

end Hub

/-! ## A cluster at rest -/

/-- An open link on which everything was read. -/
structure Link.Rest (l : Link) : Prop where
  ended : l.ended = false
  emptied : l.emptied = l

theorem Link.Rest.unread {l : Link} (h : l.Rest) (bytes : List UInt8) :
    (l.arrive bytes).unread [] = bytes := by
  rw [← h.emptied, Link.unread, List.append_nil]
  rfl

theorem Link.Rest.send {l : Link} (h : l.Rest) (bytes : List UInt8) : (l.send bytes).Rest where
  ended := h.ended
  emptied := congrArg (Link.send · bytes) h.emptied

theorem Link.Rest.arrive_emptied {l : Link} (h : l.Rest) (bytes : List UInt8) :
    (l.arrive bytes).emptied = l := h.emptied

namespace Cluster

structure AtRest (size : Nat) (c : Cluster) : Prop where
  size_members : c.members.length = size
  size_links : c.hub.links.length = size
  links : ∀ l ∈ c.hub.links, l.Rest
  members : ∀ m ∈ c.members, m.link.Rest ∧ 0 < m.timeout

theorem atRest_start (size : Nat) {timeout : Nat} (ht : 0 < timeout) :
    (start size timeout).AtRest size where
  size_members := List.length_replicate
  size_links := List.length_replicate
  links := fun l hl => by
    rw [List.eq_of_mem_replicate hl]
    exact ⟨rfl, rfl⟩
  members := fun m hm => by
    rw [List.eq_of_mem_replicate hm]
    exact ⟨⟨rfl, rfl⟩, ht⟩

section
variable {ps : List (Member × Link × Frame)} {bytesOf : Frame → List UInt8}

theorem sendAll_map (h : ∀ p ∈ ps, p.2.2.encode = .ok (bytesOf p.2.2)) :
    sendAll (ps.map fun p => p.1) (ps.map fun p => p.2.2) =
      ps.map fun p => { p.1 with link := p.1.link.send (bytesOf p.2.2) } := by
  rw [sendAll, List.zip_map', List.map_map]
  apply List.map_congr_left
  intro p hp
  show ((p.1.send p.2.2).toOption.getD p.1) = _
  rw [Member.send, h p hp]
  rfl

theorem deliverUp_map : deliverUp (ps.map fun p => p.1)
    (ps.map fun p => { p.1 with link := p.1.link.send (bytesOf p.2.2) }) (ps.map fun p => p.2.1) =
      ps.map fun p => p.2.1.arrive (bytesOf p.2.2) := by
  rw [deliverUp, List.zip_map', List.zip_map', List.map_map]
  refine List.map_congr_left fun p _ => congrArg p.2.1.arrive ?_
  exact List.drop_left

theorem deliverDown_map (bytes : List UInt8) :
    deliverDown (ps.map fun p => p.2.1.arrive (bytesOf p.2.2)) (ps.map fun p => p.2.1.send bytes)
      (ps.map fun p => { p.1 with link := p.1.link.send (bytesOf p.2.2) }) =
      ps.map fun p => { p.1 with link := (p.1.link.send (bytesOf p.2.2)).arrive bytes } := by
  rw [deliverDown, List.zip_map', List.zip_map', List.map_map]
  apply List.map_congr_left
  intro p _
  exact congrArg (fun sent => Member.mk ((p.1.link.send (bytesOf p.2.2)).arrive sent) p.1.timeout)
    List.drop_left

/-- The hub takes the frames that arrived on links at rest, and its links are at rest as before. -/
theorem wait_arrived {want : Frame.Kind} {h : Hub} (hl : h.links = ps.map fun p => p.2.1)
    (hrest : ∀ p ∈ ps, p.2.1.Rest)
    (he : ∀ p ∈ ps, p.2.2.kind = want ∧ p.2.2.encode = .ok (bytesOf p.2.2)) :
    Hub.wait want { h with links := ps.map fun p => p.2.1.arrive (bytesOf p.2.2) } =
      (.ok (ps.map fun p => p.2.2), h) := by
  obtain ⟨links, timeout⟩ := h
  obtain rfl : links = ps.map fun p => p.2.1 := hl
  have hwait := Hub.wait_of_unread want
    (h := ⟨ps.map fun p => p.2.1.arrive (bytesOf p.2.2), timeout⟩)
    (ps.map fun p => (p.2.1.arrive (bytesOf p.2.2), p.2.2))
    (by rw [List.map_map]; rfl) fun q hq => by
      obtain ⟨p, hp, rfl⟩ := List.mem_map.1 hq
      refine ⟨(hrest p hp).ended, ?_, (he p hp).1⟩
      rw [(hrest p hp).unread]
      exact (he p hp).2
  rw [hwait, List.map_map, List.map_map]
  refine congrArg (fun links => (_, (⟨links, timeout⟩ : Hub))) (List.map_congr_left fun p hp => ?_)
  exact (hrest p hp).arrive_emptied _

/-- A member at rest takes the frame that arrives, and is at rest again. -/
theorem wait_arrive {m : Member} (h : m.link.Rest) (ht : 0 < m.timeout) {f : Frame}
    {bytes : List UInt8} (hb : f.encode = .ok bytes) :
    Member.wait f.kind { m with link := m.link.arrive bytes } = (.ok f, m) := by
  have hwait := Member.waitOn_of_unread ht (m.link.arrive bytes) (by rw [h.unread, hb])
  rw [Member.wait, hwait, h.arrive_emptied]

end

/-- Three lists of one length as one list. -/
theorem exists_zip {members : List Member} {links : List Link} {fs : List Frame}
    (hl : members.length = links.length) (hf : links.length = fs.length) :
    ∃ ps : List (Member × Link × Frame), members = (ps.map fun p => p.1) ∧
      links = (ps.map fun p => p.2.1) ∧ fs = ps.map fun p => p.2.2 := by
  have hzip : (links.zip fs).length = links.length := by
    rw [List.length_zip, ← hf, Nat.min_self]
  have hsnd : (members.zip (links.zip fs)).map Prod.snd = links.zip fs :=
    List.map_snd_zip (by omega)
  refine ⟨members.zip (links.zip fs), (List.map_fst_zip (by omega)).symm, ?_, ?_⟩
  · have := congrArg (List.map Prod.fst) hsnd
    rw [List.map_map, List.map_fst_zip (by omega)] at this
    exact this.symm
  · have := congrArg (List.map Prod.snd) hsnd
    rw [List.map_map, List.map_snd_zip (by omega)] at this
    exact this.symm

/-- A barrier from rest to rest: the hub takes the frames of all members, and whatever frame it sends
    them, every member takes that. -/
theorem AtRest.exchange {size : Nat} {c : Cluster} (h : c.AtRest size) (want : Frame.Kind)
    (fs : List Frame) (hsize : fs.length = size)
    (hf : ∀ f ∈ fs, f.kind = want ∧ ∃ bytes, f.encode = .ok bytes) :
    Hub.wait want { c.hub with links := deliverUp c.members (sendAll c.members fs) c.hub.links } =
        (.ok fs, c.hub) ∧
      ∀ {f : Frame} {bytes : List UInt8}, f.encode = .ok bytes → ∃ members : List Member,
        deliverDown (deliverUp c.members (sendAll c.members fs) c.hub.links)
          (c.hub.broadcast bytes).links (sendAll c.members fs) = members ∧
        (∀ m ∈ members, m.wait f.kind = (.ok f, { m with link := m.link.emptied })) ∧
        AtRest size
          ⟨c.hub.broadcast bytes, members.map fun m => { m with link := m.link.emptied }⟩ := by
  obtain ⟨⟨links, timeout⟩, members⟩ := c
  obtain ⟨hmembers, hlinks, hrestLinks, hrestMembers⟩ := h
  simp only at hmembers hlinks hrestLinks hrestMembers ⊢
  -- What passes between a member and the hub depends on the two, and the member's frame, alone.
  obtain ⟨ps, rfl, rfl, rfl⟩ := exists_zip (hmembers.trans hlinks.symm) (hlinks.trans hsize.symm)
  let bytesOf : Frame → List UInt8 := fun f => f.encode.toOption.getD []
  have hencode : ∀ p ∈ ps, p.2.2.kind = want ∧ p.2.2.encode = .ok (bytesOf p.2.2) := by
    intro p hp
    obtain ⟨hkind, bytes, hbytes⟩ := hf p.2.2 (List.mem_map_of_mem hp)
    refine ⟨hkind, ?_⟩
    show p.2.2.encode = .ok (p.2.2.encode.toOption.getD [])
    rw [hbytes]
    rfl
  have hlink : ∀ p ∈ ps, p.2.1.Rest := fun p hp => hrestLinks p.2.1 (List.mem_map_of_mem hp)
  rw [sendAll_map fun p hp => (hencode p hp).2, deliverUp_map]
  refine ⟨wait_arrived (h := ⟨ps.map fun p => p.2.1, timeout⟩) rfl hlink hencode,
    fun {f bytes} hbytes => ?_⟩
  have hsent : ∀ p ∈ ps, (p.1.link.send (bytesOf p.2.2)).Rest ∧ 0 < p.1.timeout := by
    intro p hp
    obtain ⟨hrest, ht⟩ := hrestMembers p.1 (List.mem_map_of_mem hp)
    exact ⟨hrest.send _, ht⟩
  refine ⟨ps.map fun p => { p.1 with link := (p.1.link.send (bytesOf p.2.2)).arrive bytes },
    ?_, ?_, ?_, ?_, fun l hl => ?_, fun m hm => ?_⟩
  · rw [← deliverDown_map, Hub.broadcast, List.map_map]
    rfl
  · intro m hm
    obtain ⟨p, hp, rfl⟩ := List.mem_map.1 hm
    obtain ⟨hrest, ht⟩ := hsent p hp
    exact (wait_arrive (m := { p.1 with link := p.1.link.send (bytesOf p.2.2) }) hrest ht hbytes).trans
      (by rw [hrest.arrive_emptied])
  · rw [List.length_map, List.length_map, ← hmembers, List.length_map]
  · rw [Hub.broadcast, List.length_map]
    exact hlinks
  · obtain ⟨l', hl', rfl⟩ := List.mem_map.1 hl
    exact (hrestLinks l' hl').send bytes
  · rw [List.map_map] at hm
    obtain ⟨p, hp, rfl⟩ := List.mem_map.1 hm
    obtain ⟨hrest, ht⟩ := hsent p hp
    refine ⟨?_, ht⟩
    show ((p.1.link.send (bytesOf p.2.2)).arrive bytes).emptied.Rest
    rw [hrest.arrive_emptied]
    exact hrest

/-! ## Frames -/

/-- An events barrier gives every node what is agreed. -/
theorem AtRest.syncEvents {c : Cluster} {own agreed : Nat → Queue} {clients : List (Nat → Queue)}
    {frames k : Nat} (h : c.AtRest clients.length) (hx : Fits own clients frames) (hk : k < frames)
    (ha : Queue.Gathers (brought own clients k) (agreed k))
    (hs : (agreed k).render.utf8ByteSize ≤ Frame.maxPayload) :
    ∃ c', c.syncEvents (own k) (clients.map fun queues => queues k) =
      (List.replicate (clients.length + 1) (.ok (agreed k)), c') ∧ c'.AtRest clients.length := by
  obtain ⟨bytes, hreply, hencode, hparse⟩ := hx.reply hk ha hs
  have hfs : ((clients.map fun queues => queues k).map fun q => Frame.events q.render) =
      clients.map fun queues => .events (queues k).render := by
    rw [List.map_map]
    rfl
  obtain ⟨hwait, hanswer⟩ := h.exchange .events
    (clients.map fun queues => .events (queues k).render) (List.length_map _) fun f hf => by
      obtain ⟨queues, hqueues, rfl⟩ := List.mem_map.1 hf
      exact ⟨rfl, Frame.exists_encode_events (hx.requests queues hqueues k hk)⟩
  obtain ⟨members, hmembers, hread, hrest⟩ := hanswer hencode
  have hreceive : ∀ m ∈ members, m.receiveEvents =
      (.ok (agreed k), { m with link := m.link.emptied }) := by
    intro m hm
    have : m.wait .events = _ := hread m hm
    rw [Member.receiveEvents, this]
    simp only [hparse]
    rfl
  refine ⟨_, ?_, hrest⟩
  have hsize : members.length = clients.length := by
    have := hrest.size_members
    rwa [List.length_map] at this
  have hmap : members.map Member.receiveEvents =
      members.map fun m => (.ok (agreed k), { m with link := m.link.emptied }) :=
    List.map_congr_left hreceive
  simp only [Cluster.syncEvents, hfs, Hub.syncEvents, hwait, hreply, hmembers, hmap, List.map_map]
  refine Prod.ext ?_ rfl
  rw [List.replicate_succ, ← hsize, ← List.map_const']
  rfl

/-- A swap barrier releases every node. -/
theorem AtRest.syncSwap {c : Cluster} {size : Nat} (h : c.AtRest size) :
    ∃ c', c.syncSwap = (List.replicate (size + 1) (.ok ()), c') ∧ c'.AtRest size := by
  obtain ⟨hwait, hanswer⟩ := h.exchange .swapRequest (c.members.map fun _ => .swapRequest)
    (by rw [List.length_map, h.size_members]) fun f hf => by
      obtain ⟨_, -, rfl⟩ := List.mem_map.1 hf
      exact ⟨rfl, _, rfl⟩
  obtain ⟨members, hmembers, hread, hrest⟩ := hanswer (f := .swapNow) rfl
  have hreceive : ∀ m ∈ members, m.receiveSwap = (.ok (), { m with link := m.link.emptied }) :=
    fun m hm => by
      have : m.wait .swapNow = _ := hread m hm
      rw [Member.receiveSwap, this]
  refine ⟨_, ?_, hrest⟩
  have hsize : members.length = size := by
    have := hrest.size_members
    rwa [List.length_map] at this
  have hmap : members.map Member.receiveSwap =
      members.map fun m => (.ok (), { m with link := m.link.emptied }) :=
    List.map_congr_left hreceive
  have hbytes : [Frame.Kind.swapNow.byte] = [Frame.swapNow.kind.byte] := rfl
  simp only [Cluster.syncSwap, Hub.syncSwap, hwait, hbytes, hmembers, hmap, List.map_map]
  refine Prod.ext ?_ rfl
  rw [List.replicate_succ, ← hsize, ← List.map_const']
  rfl

/-- All frames of a cluster, one after the other, give every node what is agreed. -/
theorem play_eq {own agreed : Nat → Queue} {clients : List (Nat → Queue)} {frames timeout : Nat}
    (hx : Fits own clients frames) (ht : 0 < timeout)
    (ha : ∀ k < frames, Queue.Gathers (brought own clients k) (agreed k) ∧
      (agreed k).render.utf8ByteSize ≤ Frame.maxPayload) :
    ((start clients.length timeout).play own clients frames).1 = (List.range frames).map fun k =>
      (List.replicate (clients.length + 1) (.ok (agreed k)),
        List.replicate (clients.length + 1) (.ok ())) := by
  have hprefix : ∀ k ≤ frames, ∃ c', (start clients.length timeout).play own clients k =
      ((List.range k).map fun k => (List.replicate (clients.length + 1) (.ok (agreed k)),
        List.replicate (clients.length + 1) (.ok ())), c') ∧ c'.AtRest clients.length := by
    intro k hk
    induction k with
    | zero => exact ⟨_, rfl, atRest_start clients.length ht⟩
    | succ k ih =>
      obtain ⟨c, hplay, hrest⟩ := ih (Nat.le_of_succ_le hk)
      obtain ⟨c', hevents, hrest'⟩ := hrest.syncEvents hx hk (ha k hk).1 (ha k hk).2
      obtain ⟨c'', hswap, hrest''⟩ := hrest'.syncSwap
      refine ⟨c'', ?_, hrest''⟩
      simp only [play, hplay, playFrame, hevents, hswap, List.range_succ, List.map_append]
      rfl
  obtain ⟨c', hplay, -⟩ := hprefix frames (Nat.le_refl frames)
  rw [hplay]

end Cluster
end Lockstep
