import Lockstep.Barrier.Act
import Mathlib.Logic.Relation
import Mathlib.Data.List.Forall2

/- The acts of a node are steps of a party.

   1. A look for a frame of a kind is a number of steps on one port (`Port.steps_nextOf`), which end
      with a reader that gives an error when the look does (`Port.Fails`). So are the parts of a wait
      (`Port.steps_takeIn`, `Port.steps_collect`, `Port.steps_waitOn`).
   2. Steps on the ports of a party are steps of the party (`Party.reach_of_steps`). A party between
      barriers `Shows` a node when it has the node's links, received the bytes that came, and passed
      the barriers that the node passed. A wait that fails leaves it so, and one that gives a frame from
      every port lets it pass (`Party.Shows.fail`, `Party.Shows.succeed`).
   3. So a party goes along with a run of a hub or a client (`Party.Shows.hub_actAll`,
      `Party.Shows.member_actAll`). -/
namespace Lockstep
open Relation

variable {role : Role}

/-! ## Ports -/

namespace Port
variable {want : Option Frame.Kind} {barrier : Nat} {k : Frame.Kind} {p : Port}

/-- Any number of steps. -/
abbrev Steps (role : Role) (want : Option Frame.Kind) (barrier : Nat) : Port → Port → Prop :=
  ReflTransGen (Step role want barrier)

theorem steps_trans {ports ports' ports'' : List Port}
    (h : List.Forall₂ (Steps role want barrier) ports ports')
    (h' : List.Forall₂ (Steps role want barrier) ports' ports'') :
    List.Forall₂ (Steps role want barrier) ports ports'' := by
  induction h generalizing ports'' with
  | nil => exact h'
  | cons hstep _ ih =>
    cases h' with
    | cons hstep' hrest => exact .cons (hstep.trans hstep') (ih hrest)

/-- The reader gives an error, with which the link becomes `l`. -/
def Fails (p : Port) (l : Link) : Prop :=
  p.slot = none ∧ ∃ e reader, p.link.reader.next = (some (.error e), reader) ∧
    l = { p.link with reader }

/-- The port after a look for a frame. -/
def Looked (p : Port) (l : Link) : Except Frame.Error (Option Frame) → Prop
  | .ok f => p.link = l ∧ p.slot = f
  | .error _ => p.Fails l

section
variable (role) (barrier)

/-- A look for a frame steps on until there is one, or nothing more, or an error. -/
theorem steps_nextOf (hs : p.slot = none) {result : Except Frame.Error (Option Frame)}
    {reader : Reader} (h : p.link.reader.nextOf k = (result, reader)) :
    ∃ p', p.Steps role (some k) barrier p' ∧ p'.received = p.received ∧
      p'.Looked { p.link with reader } result := by
  generalize hr : p.link.reader = r at h
  fun_induction Reader.nextOf k r generalizing p with
  | case1 r r' hnext =>
    cases h
    subst hr
    exact ⟨_, .single (.idle hnext), rfl, rfl, hs⟩
  | case2 r e r' hnext =>
    cases h
    subst hr
    exact ⟨p, .refl, rfl, hs, e, reader, hnext, rfl⟩
  | case3 r f r' hnext hkind =>
    cases h
    subst hr
    refine ⟨_, .single (.hear rfl hs hnext), rfl, rfl, ?_⟩
    exact if_pos (decide_eq_true hkind)
  | case4 r f r' hnext hkind ih =>
    subst hr
    have hslot : (p.note k barrier (.ok f) r').slot = none :=
      (if_neg fun hgave => hkind (of_decide_eq_true hgave)).trans hs
    obtain ⟨p', hsteps, hreceived, hlook⟩ := ih hslot rfl h
    exact ⟨p', .head (.hear rfl hs hnext) hsteps, hreceived, hlook⟩

/-- The ports after a look on each of them, with the links as they are then. -/
def Collected (ports : List Port) (links : List Link) :
    Except Frame.Error (List (Option Frame)) → Prop
  | .ok fs => ports.map link = links ∧ ports.map slot = fs
  | .error _ => ∃ before p after l, ports = before ++ p :: after ∧ p.Fails l ∧
      links = before.map link ++ l :: after.map link

/-- The ports after a wait for a frame from each of them, with the links as they are then. A wait fails
    for want of a frame, and then the links are as they were, or because of a reader. -/
def Waited (ports : List Port) (links : List Link) : Except Barrier.Error (List Frame) → Prop
  | .ok frames => ports.map link = links ∧ Hub.complete (ports.map slot) = some frames
  | .error _ => ports.map link = links ∨ ∃ e, Collected ports links (.error e)

/-- A hub takes in what arrived. -/
theorem steps_takeIn (want : Option Frame.Kind) (ports : List Port) (peer : Nat) :
    ∃ ports', List.Forall₂ (Steps role want barrier) ports ports' ∧
      ports'.map received = ports.map received ∧ ports'.map slot = ports.map slot ∧
      ports'.map link = (Hub.takeIn peer (ports.map link)).2 := by
  induction ports generalizing peer with
  | nil => exact ⟨[], .nil, rfl, rfl, rfl⟩
  | cons p ports ih =>
    have hstep : p.Steps role want barrier (p.takeIn p.link.arrived.length) := .single (.takeIn _)
    simp only [List.map_cons, Hub.takeIn]
    split
    · exact ⟨_ :: ports, .cons hstep (List.forall₂_same.2 fun _ _ => .refl), rfl, rfl, rfl⟩
    · obtain ⟨ports', hsteps, hreceived, hslot, hlink⟩ := ih (peer + 1)
      exact ⟨_ :: ports', .cons hstep hsteps, congrArg _ hreceived, congrArg _ hslot,
        congrArg _ hlink⟩

/-- A hub looks for a frame on every link. -/
theorem steps_collect {ports : List Port} (hs : ∀ p ∈ ports, p.slot = none)
    {result : Except Frame.Error (List (Option Frame))} {links : List Link}
    (h : Hub.collect k (ports.map link) = (result, links)) :
    ∃ ports', List.Forall₂ (Steps role (some k) barrier) ports ports' ∧
      ports'.map received = ports.map received ∧
      Collected ports' links result := by
  induction ports generalizing result links with
  | nil =>
    cases h
    exact ⟨[], .nil, rfl, rfl, rfl⟩
  | cons p ports ih =>
    have hrest : ∀ q ∈ ports, q.slot = none := fun q hq => hs q (List.mem_cons_of_mem p hq)
    rw [List.map_cons, Hub.collect] at h
    cases hnext : p.link.reader.nextOf k with
    | mk found reader =>
      obtain ⟨p', hstep, hreceived, hlook⟩ :=
        steps_nextOf role barrier (hs p List.mem_cons_self) hnext
      rw [hnext] at h
      cases found with
      | error e =>
        cases h
        exact ⟨p' :: ports, .cons hstep (List.forall₂_same.2 fun _ _ => .refl),
          congrArg (· :: _) hreceived, [], p', ports, _, rfl, hlook, rfl⟩
      | ok f =>
        cases hcollect : Hub.collect k (ports.map link) with
        | mk more links' =>
          obtain ⟨ports', hsteps, hreceived', hfound⟩ := ih hrest hcollect
          have hall := List.Forall₂.cons hstep hsteps
          have hbytes : (p' :: ports').map received = (p :: ports).map received := by
            rw [List.map_cons, hreceived, hreceived', List.map_cons]
          simp only [hcollect] at h
          cases more with
          | error e =>
            cases h
            obtain ⟨before, q, after, l, rfl, hfails, rfl⟩ := hfound
            exact ⟨_, hall, hbytes, p' :: before, q, after, l, rfl, hfails,
              congrArg (· :: _) hlook.1.symm⟩
          | ok fs =>
            cases h
            exact ⟨_, hall, hbytes, by rw [List.map_cons, hlook.1, hfound.1],
              by rw [List.map_cons, hlook.2, hfound.2]⟩

/-- A hub waits for a frame from every peer. -/
theorem steps_wait {ports : List Port} {h h' : Hub} (hs : ∀ p ∈ ports, p.slot = none)
    (hl : ports.map link = h.links) {result : Except Barrier.Error (List Frame)}
    (hw : h.wait k = (result, h')) :
    ∃ ports', List.Forall₂ (Steps role (some k) barrier) ports ports' ∧
      ports'.map received = ports.map received ∧ Waited ports' h'.links result := by
  obtain ⟨mid, hsteps, hreceived, hslot, hlink⟩ :=
    steps_takeIn role barrier (some k) ports 0
  rw [hl] at hlink
  have hempty : ∀ p ∈ mid, p.slot = none := by
    intro p hp
    have : p.slot ∈ ports.map slot := hslot ▸ List.mem_map_of_mem hp
    obtain ⟨q, hq, hqp⟩ := List.mem_map.1 this
    exact hqp ▸ hs q hq
  rw [Hub.wait] at hw
  cases htaken : Hub.takeIn 0 h.links with
  | mk ended links =>
    rw [htaken] at hlink hw
    cases ended with
    | some peer =>
      cases hw
      exact ⟨mid, hsteps, hreceived, .inl hlink⟩
    | none =>
      cases hcollect : Hub.collect k links with
      | mk found links' =>
        obtain rfl : mid.map link = links := hlink
        obtain ⟨ports', hsteps', hreceived', hfound⟩ :=
          steps_collect role barrier hempty hcollect
        have hall := steps_trans hsteps hsteps'
        have hbytes := hreceived'.trans hreceived
        simp only [hcollect] at hw
        cases found with
        | error e =>
          cases hw
          exact ⟨ports', hall, hbytes, .inr ⟨e, hfound⟩⟩
        | ok fs =>
          obtain ⟨hlink', rfl⟩ := hfound
          cases hcomplete : Hub.complete (ports'.map slot) with
          | none =>
            simp only [hcomplete] at hw
            cases hw
            exact ⟨ports', hall, hbytes, .inl hlink'⟩
          | some frames =>
            simp only [hcomplete] at hw
            cases hw
            exact ⟨ports', hall, hbytes, hlink', hcomplete⟩

/-- A client waits for a frame. -/
theorem steps_waitOn {timeout : Nat} (hs : p.slot = none) {result : Except Barrier.Error Frame}
    {l : Link} (hw : Member.waitOn k timeout p.link = (result, l)) :
    ∃ p', p.Steps role (some k) barrier p' ∧ p'.received = p.received ∧
      Waited [p'] [l] (result.map fun f => [f]) := by
  generalize hl : p.link = link at hw
  fun_induction Member.waitOn k timeout link generalizing p with
  | case1 link e reader hnext =>
    cases hw
    subst hl
    obtain ⟨p', hsteps, hreceived, hlook⟩ := steps_nextOf role barrier hs hnext
    exact ⟨p', hsteps, hreceived, .inr ⟨e, [], p', [], _, rfl, hlook, rfl⟩⟩
  | case2 link f reader hnext =>
    cases hw
    subst hl
    obtain ⟨p', hsteps, hreceived, hlink, hslot⟩ :=
      steps_nextOf role barrier hs hnext
    exact ⟨p', hsteps, hreceived, congrArg ([·]) hlink, by rw [List.map_singleton, hslot]; rfl⟩
  | case3 link reader hnext ht =>
    cases hw
    subst hl
    obtain ⟨p', hsteps, hreceived, hlink, -⟩ :=
      steps_nextOf role barrier hs hnext
    exact ⟨p', hsteps, hreceived, .inl (congrArg ([·]) hlink)⟩
  | case4 link reader hnext ht harrived =>
    cases hw
    subst hl
    obtain ⟨p', hsteps, hreceived, hlink, -⟩ :=
      steps_nextOf role barrier hs hnext
    exact ⟨p', hsteps, hreceived, .inl (congrArg ([·]) hlink)⟩
  | case5 link reader hnext ht harrived ih =>
    subst hl
    obtain ⟨p', hsteps, hreceived, hlink, hslot⟩ :=
      steps_nextOf role barrier hs hnext
    obtain ⟨p'', hsteps', hreceived', hwaited⟩ :=
      ih (p := p'.takeIn Member.chunkSize) hslot (congrArg (Link.takeIn · _) hlink) hw
    exact ⟨p'', hsteps.trans (.head (.takeIn _) hsteps'), hreceived'.trans hreceived, hwaited⟩

end

end Port

/-! ## Parties -/

namespace Party
variable {s s' s'' : Party} {k : Frame.Kind}

theorem Reach.trans (h : s.Reach role s') (h' : s'.Reach role s'') : s.Reach role s'' := by
  induction h' with
  | refl => exact h
  | step _ hs ih => exact ih.step hs

/-- Steps on one port. -/
theorem reach_of_port {before after : List Port} {p p' : Port} (hp : s.ports = before ++ p :: after)
    (h : p.Steps role s.want s.ended p') :
    s.Reach role { s with ports := before ++ p' :: after } := by
  induction h with
  | refl =>
    rw [← hp]
    exact .refl
  | tail _ hs ih => exact ih.step (.port rfl hs)

/-- Steps on every port. -/
theorem reach_of_steps {ports : List Port}
    (h : List.Forall₂ (Port.Steps role s.want s.ended) s.ports ports) :
    s.Reach role { s with ports := ports } := by
  -- The ports that are done stand in front of those that are left.
  have hdone : ∀ {todo todo' : List Port} (done : List Port),
      List.Forall₂ (Port.Steps role s.want s.ended) todo todo' →
      ({ s with ports := done ++ todo } : Party).Reach role { s with ports := done ++ todo' } := by
    intro todo todo' done hsteps
    induction hsteps generalizing done with
    | nil => exact .refl
    | @cons p p' todo todo' hstep _ ih =>
      have hnext := ih (done ++ [p'])
      rw [List.append_assoc, List.append_assoc] at hnext
      exact (reach_of_port (s := { s with ports := done ++ p :: todo }) rfl hstep).trans hnext
  exact hdone [] h

/-- A party between barriers, with the links of a node, the kinds that the node waited for in the
    barriers it passed, and all bytes that it received from each peer. -/
structure Shows (s : Party) (links : List Link) (passed : List Frame.Kind)
    (received : List (List UInt8)) : Prop where
  want : s.want = none
  slots : ∀ p ∈ s.ports, p.slot = none
  links : s.ports.map Port.link = links
  passed : s.passed.map Prod.snd = passed
  received : s.ports.map Port.received = received

theorem shows_start (peers : Nat) : (start peers).Shows (List.replicate peers .fresh) []
    (List.replicate peers []) where
  want := rfl
  slots := fun p hp => by rw [List.eq_of_mem_replicate hp]; rfl
  links := List.map_replicate
  passed := rfl
  received := List.map_replicate

theorem shows_leave (s : Party) : s.leave.Shows (s.ports.map Port.link) (s.passed.map Prod.snd)
    (s.ports.map Port.received) where
  want := rfl
  slots := fun p hp => by
    obtain ⟨q, -, rfl⟩ := List.mem_map.1 hp
    rfl
  links := List.map_map ..
  passed := rfl
  received := List.map_map ..

theorem shows_pass (s : Party) (k : Frame.Kind) (bytes : List UInt8) :
    (s.pass k bytes s.ports.length).Shows (s.ports.map fun p => p.link.send bytes)
      (s.passed.map Prod.snd ++ [k]) (s.ports.map Port.received) := by
  have hports : (s.pass k bytes s.ports.length).ports = s.ports.map fun p => (p.send bytes).clear := by
    show (s.ports.take s.ports.length).map _ ++ (s.ports.drop s.ports.length).map _ = _
    rw [List.take_length, List.drop_length, List.map_nil, List.append_nil]
  refine ⟨rfl, fun p hp => ?_, ?_, List.map_append, ?_⟩
  · rw [hports] at hp
    obtain ⟨q, -, rfl⟩ := List.mem_map.1 hp
    rfl
  · rw [hports, List.map_map]
    rfl
  · rw [hports, List.map_map]
    rfl

section
variable {links links' : List Link} {passed : List Frame.Kind} {received : List (List UInt8)}
  {ports : List Port}

/-- A wait takes a party into a barrier. -/
theorem Shows.reach_wait (h : s.Shows links passed received) (hk : role.waits k)
    (hp : List.Forall₂ (Port.Steps role (some k) s.ended) s.ports ports) :
    s.Reach role { s with want := some k, ports := ports } :=
  (Reach.refl.step (.enter h.want hk)).trans (reach_of_steps (s := s.enter k) hp)

/-- A wait that fails takes the party to rest. -/
theorem Shows.fail (h : s.Shows links passed received) (hk : role.waits k)
    (hp : List.Forall₂ (Port.Steps role (some k) s.ended) s.ports ports)
    (hr : ports.map Port.received = s.ports.map Port.received) {e : Barrier.Error}
    (hw : Port.Waited ports links' (.error e)) :
    ∃ s', s.Reach role s' ∧ s'.Shows links' passed received := by
  have hreach := h.reach_wait hk hp
  rw [h.received] at hr
  rcases hw with hlinks | ⟨_, before, p, after, l, rfl, ⟨hslot, e', reader, hnext, rfl⟩, rfl⟩
  · have hshows := shows_leave { s with want := some k, ports := ports }
    rw [hlinks, hr, h.passed] at hshows
    exact ⟨_, hreach.step (.leave rfl), hshows⟩
  · have hshows := shows_leave
      { s with want := some k, ports := before ++ p.note k s.ended (.error e') reader :: after }
    have hlinks : (before ++ p.note k s.ended (.error e') reader :: after).map Port.link =
        before.map Port.link ++ { p.link with reader } :: after.map Port.link := by
      rw [List.map_append, List.map_cons]
      rfl
    have hreceived : (before ++ p.note k s.ended (.error e') reader :: after).map Port.received =
        received := by
      rw [← hr, List.map_append, List.map_cons, List.map_append, List.map_cons]
      rfl
    rw [hlinks, hreceived, h.passed] at hshows
    exact ⟨_, hreach.step (.refuse rfl rfl hslot hnext), hshows⟩

/-- A wait that gives a frame from every port lets the party pass. -/
theorem Shows.succeed (h : s.Shows links passed received) (hk : role.waits k)
    (hp : List.Forall₂ (Port.Steps role (some k) s.ended) s.ports ports)
    (hr : ports.map Port.received = s.ports.map Port.received) {frames : List Frame}
    (hw : Port.Waited ports links' (.ok frames)) {bytes : List UInt8}
    (ha : role.Answers k frames bytes) :
    ∃ s', s.Reach role s' ∧
      s'.Shows (links'.map fun l => l.send bytes) (passed ++ [k]) received := by
  have hshows := shows_pass { s with want := some k, ports := ports } k bytes
  rw [hr, h.received, h.passed] at hshows
  obtain ⟨hlinks, hcomplete⟩ := hw
  rw [← hlinks, List.map_map]
  exact ⟨_, (h.reach_wait hk hp).step (.pass _ rfl hcomplete ha), hshows⟩

/-- What happens to one port between barriers. -/
theorem Shows.modify (h : s.Shows links passed received) (peer : Nat) {f : Port → Port}
    {g : Link → Link} {bytes : List UInt8} (hf : ∀ p : Port, p.Step role s.want s.ended (f p))
    (hslot : ∀ p, (f p).slot = p.slot) (hlink : ∀ p, (f p).link = g p.link)
    (hbytes : ∀ p, (f p).received = p.received ++ bytes) :
    ∃ s', s.Reach role s' ∧ s'.Shows (links.modify peer g) passed
      (received.mapIdx fun i got => got ++ if peer = i then bytes else []) := by
  have hreach : s.Reach role { s with ports := s.ports.modify peer f } := by
    by_cases hpeer : peer < s.ports.length
    · obtain ⟨before, p, after, hports, -, hmodify⟩ := List.exists_of_modify f hpeer
      rw [hmodify]
      exact reach_of_port hports (.single (hf p))
    · rw [List.modify_eq_self (Nat.le_of_not_lt hpeer)]
      exact .refl
  refine ⟨_, hreach, h.want, fun p hp => ?_, h.links ▸ Hub.map_modify hlink .., h.passed, ?_⟩
  · have hslots := Hub.map_modify (c := id) hslot s.ports peer
    rw [List.modify_id] at hslots
    have hp' : p.slot ∈ s.ports.map Port.slot := hslots ▸ List.mem_map_of_mem hp
    obtain ⟨q, hq, hqp⟩ := List.mem_map.1 hp'
    exact hqp ▸ h.slots q hq
  · rw [← h.received]
    refine (Hub.map_modify (c := (· ++ bytes)) hbytes ..).trans (List.ext_getElem? fun i => ?_)
    rw [List.getElem?_modify, List.getElem?_mapIdx]
    by_cases hi : peer = i
    · simp only [hi, if_true, Option.map_eq_map]
    · simp only [hi, if_false, Option.map_eq_map, List.append_nil]

end

/-! ## Acts -/

section
variable {passed : List Frame.Kind} {received : List (List UInt8)}

/-- A barrier of a hub. -/
theorem Shows.hub_barrier {h h' : Hub} (hs : s.Shows h.links passed received)
    (hk : Role.hub.waits k) {frames : Except Barrier.Error (List Frame)}
    (hw : h.wait k = (frames, h')) :
    (∃ s', s.Reach .hub s' ∧ s'.Shows h'.links passed received) ∧
      ∀ fs bytes, frames = .ok fs → Role.hub.Answers k fs bytes →
        ∃ s', s.Reach .hub s' ∧
          s'.Shows (h'.broadcast bytes).links (passed ++ [k]) received := by
  obtain ⟨ports, hsteps, hreceived, hwaited⟩ :=
    Port.steps_wait .hub s.ended hs.slots hs.links hw
  refine ⟨?_, fun fs bytes hfs ha => ?_⟩
  · cases frames with
    | error e => exact hs.fail hk hsteps hreceived hwaited
    | ok fs => exact hs.fail (e := .timedOut 0) hk hsteps hreceived (.inl hwaited.1)
  · subst hfs
    exact hs.succeed hk hsteps hreceived hwaited ha

theorem mapIdx_append_nil (received : List (List UInt8)) :
    (received.mapIdx fun _ got => got ++ []) = received := by
  refine List.ext_getElem? fun i => ?_
  rw [List.getElem?_mapIdx]
  cases received[i]? with
  | none => rfl
  | some got => exact congrArg some (List.append_nil got)

/-- A party goes along with what happens at a hub. -/
theorem Shows.hub_act {h : Hub} (hs : s.Shows h.links passed received) (a : Hub.Act) :
    ∃ s', s.Reach .hub s' ∧ s'.Shows (h.act a).2.links (passed ++ (h.act a).1)
      (received.mapIdx fun i got => got ++ a.bytesFrom i) := by
  cases a with
  | arrive peer bytes =>
    rw [Hub.act, List.append_nil]
    exact hs.modify peer (fun _ => .arrive bytes) (fun _ => rfl) (fun _ => rfl) fun _ => rfl
  | finish peer =>
    have hnone : (received.mapIdx fun i got => got ++ (Hub.Act.finish peer).bytesFrom i) =
        received.mapIdx fun i got => got ++ if peer = i then [] else [] := by
      simp only [Hub.Act.bytesFrom, ite_self]
    rw [Hub.act, List.append_nil, hnone]
    exact hs.modify peer (fun _ => .finish) (fun _ => rfl) (fun _ => rfl) fun _ =>
      (List.append_nil _).symm
  | syncEvents q =>
    simp only [Hub.Act.bytesFrom, mapIdx_append_nil]
    rw [Hub.act, Hub.syncEvents]
    cases hw : h.wait .events with
    | mk frames h' =>
      obtain ⟨hleft, hpassed⟩ := hs.hub_barrier (.inl rfl) hw
      rw [← List.append_nil passed] at hleft
      cases frames with
      | error e => exact hleft
      | ok fs =>
        cases hreply : Hub.reply q fs with
        | error e =>
          simp only [hreply]
          exact hleft
        | ok reply =>
          simp only [hreply]
          exact hpassed fs reply.2 rfl ⟨q, reply.1, hreply⟩
  | syncSwap =>
    simp only [Hub.Act.bytesFrom, mapIdx_append_nil]
    rw [Hub.act, Hub.syncSwap]
    cases hw : h.wait .swapRequest with
    | mk frames h' =>
      obtain ⟨hleft, hpassed⟩ := hs.hub_barrier (.inr rfl) hw
      rw [← List.append_nil passed] at hleft
      cases frames with
      | error e => exact hleft
      | ok fs => exact hpassed fs _ rfl rfl

/-- A party goes along with a run of a hub. -/
theorem Shows.hub_actAll {h : Hub} (hs : s.Shows h.links passed received) (acts : List Hub.Act) :
    ∃ s', s.Reach .hub s' ∧ s'.Shows (h.actAll acts).2.links (passed ++ (h.actAll acts).1)
      (received.mapIdx fun i got => got ++ acts.flatMap (Hub.Act.bytesFrom i)) := by
  induction acts generalizing h s passed received with
  | nil =>
    refine ⟨s, .refl, ?_⟩
    simp only [List.flatMap_nil, mapIdx_append_nil]
    rw [Hub.actAll, List.append_nil]
    exact hs
  | cons a acts ih =>
    obtain ⟨s', hreach, hs'⟩ := hs.hub_act a
    obtain ⟨s'', hreach', hs''⟩ := ih hs'
    refine ⟨s'', hreach.trans hreach', ?_⟩
    simp only [List.mapIdx_mapIdx, Function.comp_def, List.append_assoc] at hs''
    exact hs''

/-- A barrier of a client. -/
theorem Shows.member_barrier {m m' : Member} (hs : s.Shows [m.link] passed received)
    (hk : Role.member.waits k) {frame : Except Barrier.Error Frame} (hw : m.wait k = (frame, m')) :
    (∃ s', s.Reach .member s' ∧ s'.Shows [m'.link] passed received) ∧
      ∀ f, frame = .ok f →
        ∃ s', s.Reach .member s' ∧ s'.Shows [m'.link] (passed ++ [k]) received := by
  obtain ⟨p, hports, hlink⟩ := List.map_eq_singleton_iff.1 hs.links
  have hslot : p.slot = none := hs.slots p (by rw [hports]; exact List.mem_cons_self)
  rw [Member.wait] at hw
  cases hlook : Member.waitOn k m.timeout m.link with
  | mk result l =>
    rw [hlook] at hw
    cases hw
    obtain ⟨p', hsteps, hreceived, hwaited⟩ :=
      Port.steps_waitOn .member s.ended hslot (hlink ▸ hlook)
    have hall : List.Forall₂ (Port.Steps .member (some k) s.ended) s.ports [p'] := by
      rw [hports]
      exact .cons hsteps .nil
    have hbytes : [p'].map Port.received = s.ports.map Port.received := by
      rw [hports]
      exact congrArg ([·]) hreceived
    refine ⟨?_, fun f hf => ?_⟩
    · cases frame with
      | error e => exact hs.fail hk hall hbytes hwaited
      | ok f => exact hs.fail (e := .timedOut 0) hk hall hbytes (.inl hwaited.1)
    · subst hf
      have ha : Role.member.Answers k [f] [] := by cases k <;> rfl
      have hsend : [l].map (fun l => l.send []) = [l] := by
        rw [List.map_singleton, Link.send, List.append_nil]
      exact hsend ▸ hs.succeed hk hall hbytes hwaited ha

/-- A party goes along with what happens at a client. -/
theorem Shows.member_act {m : Member} {got : List UInt8} (hs : s.Shows [m.link] passed [got])
    (a : Member.Act) :
    ∃ s', s.Reach .member s' ∧
      s'.Shows [(m.act a).2.link] (passed ++ (m.act a).1) [got ++ a.bytes] := by
  cases a with
  | arrive bytes =>
    rw [Member.act, List.append_nil]
    exact hs.modify (g := (Link.arrive · bytes)) 0 (fun _ => .arrive bytes) (fun _ => rfl)
      (fun _ => rfl) fun _ => rfl
  | finish =>
    rw [Member.act, List.append_nil]
    exact hs.modify (g := Link.finish) 0 (fun _ => .finish) (fun _ => rfl) (fun _ => rfl) fun _ =>
      (List.append_nil _).symm
  | send f =>
    rw [Member.act, List.append_nil, Member.send, Member.Act.bytes]
    cases hf : f.encode with
    | error e =>
      rw [List.append_nil]
      exact ⟨s, .refl, hs⟩
    | ok bytes =>
      exact hs.modify (g := (Link.send · bytes)) 0 (fun _ => .request rfl hf) (fun _ => rfl)
        (fun _ => rfl) fun _ => (List.append_nil _).symm
  | receiveEvents =>
    rw [Member.act, Member.receiveEvents, Member.Act.bytes, List.append_nil]
    cases hw : m.wait .events with
    | mk frame m' =>
      obtain ⟨hleft, hpassed⟩ := hs.member_barrier (.inl rfl) hw
      rw [← List.append_nil passed] at hleft
      cases frame with
      | error e => exact hleft
      | ok f =>
        cases f with
        | events text =>
          cases hparse : Queue.parse text with
          | error e =>
            simp only [hparse]
            exact hleft
          | ok q =>
            simp only [hparse]
            exact hpassed _ rfl
        | swapRequest | swapNow => exact hpassed _ rfl
  | receiveSwap =>
    rw [Member.act, Member.receiveSwap, Member.Act.bytes, List.append_nil]
    cases hw : m.wait .swapNow with
    | mk frame m' =>
      obtain ⟨hleft, hpassed⟩ := hs.member_barrier (.inr rfl) hw
      rw [← List.append_nil passed] at hleft
      cases frame with
      | error e => exact hleft
      | ok f => exact hpassed f rfl

/-- A party goes along with a run of a client. -/
theorem Shows.member_actAll {m : Member} {got : List UInt8} (hs : s.Shows [m.link] passed [got])
    (acts : List Member.Act) :
    ∃ s', s.Reach .member s' ∧ s'.Shows [(m.actAll acts).2.link] (passed ++ (m.actAll acts).1)
      [got ++ acts.flatMap Member.Act.bytes] := by
  induction acts generalizing m s passed got with
  | nil =>
    refine ⟨s, .refl, ?_⟩
    rw [Member.actAll, List.flatMap_nil, List.append_nil, List.append_nil]
    exact hs
  | cons a acts ih =>
    obtain ⟨s', hreach, hs'⟩ := hs.member_act a
    obtain ⟨s'', hreach', hs''⟩ := ih hs'
    refine ⟨s'', hreach.trans hreach', ?_⟩
    rw [List.append_assoc, List.append_assoc] at hs''
    exact hs''

end

end Party
end Lockstep
