import Lockstep.Barrier.Act
import Lockstep.Barrier.Schedule
import Lockstep.Proofs.Barrier.Calls

/- What one move of a node does.

   1. A call during which nothing comes is the barrier of the hub or the member (`Host.play_call`,
      `Guest.exists_play_call`): what takes time can also be done at once.
   2. `Host.Step` lists what a move of a host can do. Other than by news it stays, it fails and sends
      nothing, it goes on to wait, or it passes and sends the same bytes to every peer. Up to a look,
      what was sent and what is left to read stay as they are on every link (`Hub.TakenIn`).
   3. `Guest.Step` does so for a client, whose request is sent before its first look (`Guest.Under`). -/
namespace Lockstep
open Barrier

/-! ## Calls at once -/

/-- The barrier of a call, without anything that comes while it is under way. -/
def Hub.call (h : Hub) : Call → Outcome × Hub
  | .syncEvents q => ((h.syncEvents q).1.map some, (h.syncEvents q).2)
  | .syncSwap => ((h.syncSwap).1.map fun _ => none, (h.syncSwap).2)

namespace Hub

theorem call_eq (h : Hub) (c : Call) : h.call c =
    match h.wait c.requestKind with
    | (.error e, h') => (.error e, h')
    | (.ok frames, h') =>
      match c.respond frames with
      | .error e => (.error e, h')
      | .ok (result, bytes) => (.ok result, h'.broadcast bytes) := by
  cases c with
  | syncSwap =>
    rw [call, syncSwap, Call.requestKind]
    rcases h.wait .swapRequest with ⟨e | frames, h'⟩ <;> rfl
  | syncEvents q =>
    rw [call, syncEvents, Call.requestKind]
    rcases h.wait .events with ⟨e | frames, h'⟩
    · rfl
    · simp only [Call.respond]
      cases hreply : reply q frames with
      | error e => rfl
      | ok found => rfl

/-- Where no link gave a frame yet, a look for what is missing is a look at every link. -/
theorem fill_replicate (want : Frame.Kind) (links : List Link) :
    fill want (List.replicate links.length none) links = collect want links := by
  induction links with
  | nil => rfl
  | cons l links ih =>
    rw [List.length_cons, List.replicate_succ]
    rcases hnext : l.reader.nextOf want with ⟨e | slot, reader⟩
    · simp only [fill, collect, hnext]
    · rcases hcollect : collect want links with ⟨e | slots, links'⟩ <;>
        simp only [fill, collect, hnext, ih, hcollect]

end Hub

/-- A call of a host for which nothing comes until the time is up is the barrier of its hub. -/
theorem Host.play_call (hub : Hub) (turns : List Turn) (c : Call) :
    ∃ taken, (⟨hub, none, turns⟩ : Host).play [.enter c, .expire] =
      ⟨(hub.call c).2, none, turns ++ [⟨c, taken, (hub.call c).1⟩]⟩ := by
  rw [Hub.call_eq]
  simp only [play, List.foldl_cons, List.foldl_nil, move, Hub.wait]
  cases htaken : Hub.takeIn 0 hub.links with
  | mk ended links =>
    cases ended with
    | some peer => exact ⟨[], rfl⟩
    | none =>
      simp only [look, Hub.withLinks, Hub.fill_replicate]
      rcases Hub.collect c.requestKind links with ⟨e | slots, links'⟩
      · exact ⟨[], rfl⟩
      · cases hcomplete : Hub.complete slots with
        | none =>
          simp only [hcomplete]
          exact ⟨[], rfl⟩
        | some frames =>
          simp only [hcomplete, settle]
          rcases c.respond frames with e | ⟨result, bytes⟩
          · exact ⟨frames, rfl⟩
          · exact ⟨frames, rfl⟩

theorem Host.play_append (h : Host) (moves more : List Host.Move) :
    h.play (moves ++ more) = (h.play moves).play more := List.foldl_append

theorem Host.exists_play_act (hub : Hub) (turns : List Turn) (a : Hub.Act) :
    ∃ moves turns', (⟨hub, none, turns⟩ : Host).play moves = ⟨(hub.act a).2, none, turns'⟩ := by
  cases a with
  | arrive peer bytes => exact ⟨[.news peer (.arrive bytes)], turns, rfl⟩
  | finish peer => exact ⟨[.news peer .finish], turns, rfl⟩
  | syncEvents q =>
    obtain ⟨taken, hplay⟩ := Host.play_call hub turns (.syncEvents q)
    have hact : (hub.act (.syncEvents q)).2 = (hub.call (.syncEvents q)).2 := by
      rw [Hub.act, Hub.call]
      rcases hub.syncEvents q with ⟨e | result, hub'⟩ <;> rfl
    exact ⟨_, _, hact ▸ hplay⟩
  | syncSwap =>
    obtain ⟨taken, hplay⟩ := Host.play_call hub turns .syncSwap
    have hact : (hub.act .syncSwap).2 = (hub.call .syncSwap).2 := by
      rw [Hub.act, Hub.call]
      rcases hub.syncSwap with ⟨e | result, hub'⟩ <;> rfl
    exact ⟨_, _, hact ▸ hplay⟩

/-- Whatever a hub does at once, a host can do. -/
theorem Host.exists_play_actAll (hub : Hub) (turns : List Turn) (acts : List Hub.Act) :
    ∃ moves turns', (⟨hub, none, turns⟩ : Host).play moves =
      ⟨(hub.actAll acts).2, none, turns'⟩ := by
  induction acts generalizing hub turns with
  | nil => exact ⟨[], turns, rfl⟩
  | cons a acts ih =>
    obtain ⟨moves, turns', hfirst⟩ := Host.exists_play_act hub turns a
    obtain ⟨more, turns'', hrest⟩ := ih (hub.act a).2 turns'
    refine ⟨moves ++ more, turns'', ?_⟩
    rw [Host.play_append, hfirst, hrest]
    rfl

theorem Reader.kind_of_nextOf {want : Frame.Kind} {r r' : Reader} {f : Frame}
    (h : r.nextOf want = (.ok (some f), r')) : f.kind = want := by
  fun_induction Reader.nextOf want r with
  | case1 => cases h
  | case2 => cases h
  | case3 _ _ _ _ hkind =>
    cases h
    exact hkind
  | case4 _ _ _ _ _ ih => exact ih h

theorem Member.kind_of_waitOn {want : Frame.Kind} {timeout : Nat} {l l' : Link} {f : Frame}
    (h : waitOn want timeout l = (.ok f, l')) : f.kind = want := by
  fun_induction waitOn want timeout l with
  | case1 | case3 | case4 => cases h
  | case2 l f' reader hnext =>
    cases h
    exact Reader.kind_of_nextOf hnext
  | case5 _ _ _ _ _ ih => exact ih h

/-- The barrier of a call, without anything that comes while it is under way. -/
def Member.call (m : Member) : Call → Outcome × Member
  | .syncEvents q => ((m.syncEvents q).1.map some, (m.syncEvents q).2)
  | .syncSwap => ((m.syncSwap).1.map fun _ => none, (m.syncSwap).2)

theorem Member.call_eq (m : Member) (c : Call) : m.call c =
    match m.send c.request with
    | .error e => (.error e, m)
    | .ok m' => ((m'.wait c.answerKind).1.bind outcomeOf, (m'.wait c.answerKind).2) := by
  cases c with
  | syncSwap =>
    rw [call, syncSwap, Call.request]
    rcases m.send .swapRequest with e | m'
    · rfl
    · simp only [receiveSwap, wait, Call.answerKind]
      rcases hwait : waitOn .swapNow m'.timeout m'.link with ⟨e | f, l⟩
      · rfl
      · have hkind := kind_of_waitOn hwait
        cases f with
        | events text => cases hkind
        | swapRequest | swapNow => rfl
  | syncEvents q =>
    rw [call, syncEvents, Call.request]
    rcases m.send (.events q.render) with e | m'
    · rfl
    · simp only [receiveEvents, wait, Call.answerKind]
      rcases hwait : waitOn .events m'.timeout m'.link with ⟨e | f, l⟩
      · rfl
      · have hkind := kind_of_waitOn hwait
        cases f with
        | events text => rfl
        | swapRequest | swapNow => cases hkind

namespace Guest

/-- A client takes in chunks until it has what it waits for, or all there is. -/
theorem exists_play_look (c : Call) (timeout : Nat) (l : Link) (g : Guest) :
    ∃ reads taken, (g.look c ⟨l, timeout⟩).play (List.replicate reads .read ++ [.expire]) =
      ⟨⟨(Member.waitOn c.answerKind timeout l).2, timeout⟩, none, g.turns ++
        [⟨c, taken, (Member.waitOn c.answerKind timeout l).1.bind outcomeOf⟩]⟩ := by
  fun_induction Member.waitOn c.answerKind timeout l generalizing g with
  | case1 l e reader hnext =>
    refine ⟨0, [], ?_⟩
    simp only [look, hnext]
    rfl
  | case2 l f reader hnext =>
    refine ⟨0, [f], ?_⟩
    simp only [look, hnext]
    rfl
  | case3 l reader hnext ht =>
    refine ⟨0, [], ?_⟩
    simp only [look, hnext]
    rfl
  | case4 l reader hnext ht harrived =>
    -- The end of the stream shows when the client wants to take in more.
    refine ⟨1, [], ?_⟩
    simp only [look, hnext, play, List.replicate_one, List.singleton_append, List.foldl_cons,
      List.foldl_nil, move, harrived, if_true]
    cases l.ended <;> rfl
  | case5 l reader hnext ht harrived ih =>
    obtain ⟨reads, taken, hplay⟩ :=
      ih ⟨⟨{ l with reader }, timeout⟩, some c, g.turns⟩
    refine ⟨reads + 1, taken, ?_⟩
    rw [← hplay, look, hnext, List.replicate_succ, List.cons_append, play, List.foldl_cons]
    simp only [move, if_neg harrived]
    rfl

/-- A call of a client for which nothing comes until the time is up is the barrier of its member. -/
theorem exists_play_call (m : Member) (turns : List Turn) (c : Call) :
    ∃ reads taken, (⟨m, none, turns⟩ : Guest).play (.enter c :: (List.replicate reads .read ++ [.expire])) =
      ⟨(m.call c).2, none, turns ++ [⟨c, taken, (m.call c).1⟩]⟩ := by
  rw [Member.call_eq]
  cases hsend : m.send c.request with
  | error e =>
    refine ⟨0, [], ?_⟩
    simp only [play, List.replicate_zero, List.nil_append, List.foldl_cons, List.foldl_nil, move, hsend]
    rfl
  | ok m' =>
    obtain ⟨reads, taken, hplay⟩ := exists_play_look c m'.timeout m'.link ⟨m, none, turns⟩
    refine ⟨reads, taken, ?_⟩
    simp only [play, List.foldl_cons, move, hsend]
    exact hplay

end Guest

/-! ## One move of a host -/

namespace Hub

/-- Links on which what arrived may have been taken in, and nothing else happened. -/
structure TakenIn (links links' : List Link) : Prop where
  sent : links'.map Link.sent = links.map Link.sent
  unread : ∀ underway, links'.map (fun l => l.unread underway) = links.map fun l => l.unread underway

theorem map_modify_self {α : Type} {f : Link → α} {g : Link → Link} (hf : ∀ l, f (g l) = f l)
    (peer : Nat) (links : List Link) : (links.modify peer g).map f = links.map f :=
  (map_modify (c := id) hf links peer).trans (List.modify_id ..)

theorem map_takeIn {α : Type} {f : Link → α} (hf : ∀ l, f l.takeAll = f l) (peer : Nat)
    (links : List Link) : (takeIn peer links).2.map f = links.map f := by
  induction links generalizing peer with
  | nil => rfl
  | cons l links ih =>
    rw [takeIn]
    split
    · rw [List.map_cons, List.map_cons, hf]
    · rw [List.map_cons, List.map_cons, hf, ih]

theorem map_takeReady {α : Type} {f : Link → α} (hf : ∀ l, f l.takeAll = f l) (ready : List Nat)
    (links : List Link) : (takeReady ready links).2.map f = links.map f := by
  induction ready generalizing links with
  | nil => rfl
  | cons peer ready ih =>
    rw [takeReady]
    split
    · exact map_modify_self hf peer links
    · rw [ih, map_modify_self hf]

theorem takenIn_takeIn (peer : Nat) (links : List Link) : TakenIn links (takeIn peer links).2 :=
  ⟨map_takeIn (fun _ => rfl) peer links,
    fun underway => map_takeIn (fun l => Link.unread_takeIn l underway _) peer links⟩

theorem takenIn_takeReady (ready : List Nat) (links : List Link) :
    TakenIn links (takeReady ready links).2 :=
  ⟨map_takeReady (fun _ => rfl) ready links,
    fun underway => map_takeReady (fun l => Link.unread_takeIn l underway _) ready links⟩

/-- A look sends nothing. -/
theorem map_sent_fill (want : Frame.Kind) (slots : List (Option Frame)) (links : List Link) :
    (fill want slots links).2.map Link.sent = links.map Link.sent := by
  fun_induction fill want slots links <;> simp_all

/-- What a look does on one link: nothing if that gave its frame before. -/
theorem getElem?_fill {want : Frame.Kind} {slots slots' : List (Option Frame)}
    {links links' : List Link} (h : fill want slots links = (.ok slots', links')) {i : Nat}
    {slot : Option Frame} {l : Link} (hs : slots[i]? = some slot) (hl : links[i]? = some l) :
    ∃ slot' l', slots'[i]? = some slot' ∧ links'[i]? = some l' ∧
      (slot' = slot ∧ l' = l ∨ slot = none ∧
        ∃ reader, l.reader.nextOf want = (.ok slot', reader) ∧ l' = { l with reader }) := by
  fun_induction fill want slots links generalizing i slots' links' with
  | case1 links => cases hs
  | case2 slots => cases hl
  | case3 => cases h
  | case4 f slots l₀ links slots₁ links₁ hfill ih =>
    cases h
    cases i with
    | zero =>
      cases hs
      cases hl
      exact ⟨_, _, rfl, rfl, .inl ⟨rfl, rfl⟩⟩
    | succ i => exact ih hfill hs hl
  | case5 => cases h
  | case6 => cases h
  | case7 slots l₀ links slot₁ reader hnext slots₁ links₁ hfill ih =>
    cases h
    cases i with
    | zero =>
      cases hs
      cases hl
      exact ⟨_, _, rfl, rfl, .inr ⟨rfl, reader, hnext, rfl⟩⟩
    | succ i => exact ih hfill hs hl

theorem length_fill {want : Frame.Kind} {slots slots' : List (Option Frame)}
    {links links' : List Link} (h : fill want slots links = (.ok slots', links')) :
    slots'.length = slots.length := by
  fun_induction fill want slots links generalizing slots' links' with
  | case1 | case2 =>
    cases h
    rfl
  | case3 | case5 | case6 => cases h
  | case4 _ _ _ _ _ _ hfill ih =>
    cases h
    exact congrArg Nat.succ (ih hfill)
  | case7 _ _ _ _ _ _ _ _ hfill ih =>
    cases h
    exact congrArg Nat.succ (ih hfill)

/-- A look takes frames of the kind only. -/
theorem kind_of_mem_fill {want : Frame.Kind} {slots slots' : List (Option Frame)}
    {links links' : List Link} (h : fill want slots links = (.ok slots', links'))
    (hslots : ∀ f, some f ∈ slots → f.kind = want) : ∀ f, some f ∈ slots' → f.kind = want := by
  fun_induction fill want slots links generalizing slots' links' with
  | case1 | case2 =>
    cases h
    exact hslots
  | case3 | case5 | case6 => cases h
  | case4 f slots _ _ _ _ hfill ih =>
    cases h
    have hrest := ih hfill fun f' hf' => hslots f' (List.mem_cons_of_mem _ hf')
    intro f' hf'
    rcases List.mem_cons.1 hf' with hsame | hf'
    · exact hslots f' (hsame ▸ List.mem_cons_self)
    · exact hrest f' hf'
  | case7 slots _ _ slot reader hnext _ _ hfill ih =>
    cases h
    have hrest := ih hfill fun f' hf' => hslots f' (List.mem_cons_of_mem _ hf')
    intro f' hf'
    rcases List.mem_cons.1 hf' with rfl | hf'
    · exact Reader.kind_of_nextOf hnext
    · exact hrest f' hf'

end Hub

namespace Host

/-- The call under way, or one that begins, with what it took from each peer so far. -/
def Under (h : Host) (c : Call) (slots : List (Option Frame)) : Prop :=
  h.pending = some (c, slots) ∨
    h.pending = none ∧ slots = List.replicate h.hub.links.length none

/-- What a move can lead to. -/
inductive Step (h : Host) : Move → Host → Prop
  | news {peer : Nat} {n : News} :
    Step h (.news peer n) { h with hub := h.hub.onPeer peer fun l => n.reach l }
  /-- The move is not possible. -/
  | stay {m : Move} (hm : ∀ peer, m.bytesFrom peer = []) : Step h m h
  | fail {m : Move} {c : Call} {taken : List Frame} {e : Error} {links : List Link}
    (hm : ∀ peer, m.bytesFrom peer = [])
    (hsent : links.map Link.sent = h.hub.links.map Link.sent) :
    Step h m (h.fail c taken e (h.hub.withLinks links))
  /-- Some peer still has to give its frame. -/
  | wait {m : Move} {c : Call} {slots slots' : List (Option Frame)} {links links' : List Link}
    (hm : ∀ peer, m.bytesFrom peer = []) (hu : h.Under c slots)
    (ht : Hub.TakenIn h.hub.links links)
    (hf : Hub.fill c.requestKind slots links = (.ok slots', links')) :
    Step h m ⟨h.hub.withLinks links', some (c, slots'), h.turns⟩
  /-- Every peer gave its frame, and all of them are answered. -/
  | pass {m : Move} {c : Call} {slots slots' : List (Option Frame)} {links links' : List Link}
    {frames : List Frame} {result : Option Queue} {bytes : List UInt8}
    (hm : ∀ peer, m.bytesFrom peer = []) (hu : h.Under c slots)
    (ht : Hub.TakenIn h.hub.links links)
    (hf : Hub.fill c.requestKind slots links = (.ok slots', links'))
    (hc : Hub.complete slots' = some frames) (hr : c.respond frames = .ok (result, bytes)) :
    Step h m ⟨(h.hub.withLinks links').broadcast bytes, none, h.turns ++ [⟨c, frames, .ok result⟩]⟩

section
variable {h : Host} {m : Move}

theorem step_look {c : Call} {slots : List (Option Frame)} {links : List Link}
    (hm : ∀ peer, m.bytesFrom peer = []) (hu : h.Under c slots)
    (ht : Hub.TakenIn h.hub.links links) : Step h m (h.look c slots (h.hub.withLinks links)) := by
  have hsent := Hub.map_sent_fill c.requestKind slots links
  rw [look, Hub.withLinks]
  rcases hfill : Hub.fill c.requestKind slots links with ⟨e | slots', links'⟩
  · rw [hfill] at hsent
    exact .fail hm (hsent.trans ht.sent)
  · rw [hfill] at hsent
    simp only
    cases hcomplete : Hub.complete slots' with
    | none => exact .wait hm hu ht hfill
    | some frames =>
      simp only [settle]
      rcases hrespond : c.respond frames with e | ⟨result, bytes⟩
      · exact .fail hm (hsent.trans ht.sent)
      · exact .pass hm hu ht hfill hcomplete hrespond

theorem step_move (h : Host) (m : Move) : Step h m (h.move m) := by
  cases m with
  | news peer n => exact .news
  | enter c =>
    have hm : ∀ peer, (Move.enter c).bytesFrom peer = [] := fun _ => rfl
    simp only [move]
    cases hp : h.pending with
    | some under => exact .stay hm
    | none =>
      have ht := Hub.takenIn_takeIn 0 h.hub.links
      rcases htaken : Hub.takeIn 0 h.hub.links with ⟨_ | peer, links⟩
      · rw [htaken] at ht
        have hlength := congrArg List.length ht.sent
        rw [List.length_map, List.length_map] at hlength
        exact step_look hm (.inr ⟨hp, by rw [hlength]⟩) ht
      · rw [htaken] at ht
        exact .fail hm ht.sent
  | poll ready =>
    have hm : ∀ peer, (Move.poll ready).bytesFrom peer = [] := fun _ => rfl
    simp only [move]
    cases hp : h.pending with
    | none => exact .stay hm
    | some under =>
      obtain ⟨c, slots⟩ := under
      have ht := Hub.takenIn_takeReady ready h.hub.links
      rcases htaken : Hub.takeReady ready h.hub.links with ⟨_ | peer, links⟩
      · rw [htaken] at ht
        exact step_look hm (.inl hp) ht
      · rw [htaken] at ht
        exact .fail hm ht.sent
  | expire =>
    have hm : ∀ peer, Move.expire.bytesFrom peer = [] := fun _ => rfl
    simp only [move]
    cases hp : h.pending with
    | none => exact .stay hm
    | some under => exact .fail hm rfl

end

/-- What every move keeps, a run keeps. -/
theorem play_induction {P : Host → Prop} (hstep : ∀ {h h' m}, P h → Step h m h' → P h') {h : Host}
    (hp : P h) (moves : List Move) : P (h.play moves) := by
  induction moves generalizing h with
  | nil => exact hp
  | cons m moves ih => exact ih (hstep hp (step_move h m))

end Host

/-! ## One move of a client -/

namespace Guest

/-- The link on which a client looks for its answer: its call begins with the request, or is under way
    and some bytes were taken in. -/
inductive Under (g : Guest) (c : Call) : Link → Prop
  | begins {bytes : List UInt8} (hp : g.pending = none) (hb : c.request.encode = .ok bytes) :
    Under g c (g.member.link.send bytes)
  | goesOn (n : Nat) (hp : g.pending = some c) : Under g c (g.member.link.takeIn n)

/-- What a move can lead to. -/
inductive Step (g : Guest) : Move → Guest → Prop
  | news {n : News} : Step g (.news n) { g with member := { g.member with link := n.reach g.member.link } }
  /-- The move is not possible. -/
  | stay {m : Move} (hm : m.bytes = []) : Step g m g
  | fail {m : Move} {c : Call} {taken : List Frame} {e : Error} {member : Member}
    (hm : m.bytes = []) : Step g m (g.settle c taken (.error e) member)
  /-- The answer is not there. -/
  | wait {m : Move} {c : Call} {l : Link} {reader : Reader} (hm : m.bytes = []) (hu : g.Under c l)
    (hn : l.reader.nextOf c.answerKind = (.ok none, reader)) :
    Step g m ⟨⟨{ l with reader }, g.member.timeout⟩, some c, g.turns⟩
  | pass {m : Move} {c : Call} {l : Link} {reader : Reader} {f : Frame} (hm : m.bytes = [])
    (hu : g.Under c l) (hn : l.reader.nextOf c.answerKind = (.ok (some f), reader)) :
    Step g m (g.settle c [f] (outcomeOf f) ⟨{ l with reader }, g.member.timeout⟩)

theorem step_look {g : Guest} {m : Move} {c : Call} {l : Link} (hm : m.bytes = [])
    (hu : g.Under c l) : Step g m (g.look c ⟨l, g.member.timeout⟩) := by
  rw [look]
  rcases hnext : l.reader.nextOf c.answerKind with ⟨e | _ | f, reader⟩
  · exact .fail hm
  · exact .wait hm hu hnext
  · exact .pass hm hu hnext

theorem step_move (g : Guest) (m : Move) : Step g m (g.move m) := by
  cases m with
  | news n => exact .news
  | enter c =>
    have hm : (Move.enter c).bytes = [] := rfl
    simp only [move]
    cases hp : g.pending with
    | some _ => exact .stay hm
    | none =>
      simp only [Member.send]
      cases hb : c.request.encode with
      | error e => exact .fail hm
      | ok bytes => exact step_look hm (.begins hp hb)
  | read =>
    have hm : Move.read.bytes = [] := rfl
    simp only [move]
    cases hp : g.pending with
    | none => exact .stay hm
    | some c =>
      simp only
      split
      · split
        · exact .fail hm
        · exact .stay hm
      · exact step_look hm (.goesOn _ hp)
  | expire =>
    have hm : Move.expire.bytes = [] := rfl
    simp only [move]
    cases hp : g.pending with
    | none => exact .stay hm
    | some c => exact .fail hm

end Guest
end Lockstep
