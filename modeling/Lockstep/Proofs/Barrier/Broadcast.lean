import Mathlib.Data.List.Forall2
import Lockstep.Proofs.Barrier.Schedule

/- What a hub sends to its peers.

   1. `Turn.Sends` says what a turn sends to every peer: the bytes of one frame when it passed, and nothing
      when it failed, for whatever reason and at whatever point.
   2. A move sends what the turn that it ends sends, and otherwise nothing (`Host.Step.sendsOnce`). A turn
      that passed took a frame of its kind from every peer (`Host.Collects`). So at every point of every
      run all peers were sent the same: what the turns so far send, one after the other
      (`Host.broadcast_uniform`). -/
namespace Lockstep
open Barrier

/-- The bytes that a turn of a hub sends to every peer. -/
inductive Turn.Sends : Turn → List UInt8 → Prop
  | failed {c : Call} {taken : List Frame} {e : Error} : Sends ⟨c, taken, .error e⟩ []
  /-- The queue that the hub goes on with is what its peers will read in the frame. -/
  | events {q merged result : Queue} {taken : List Frame} {bytes : List UInt8}
    (hm : Hub.mergeFrames q taken = .ok merged) (hp : Queue.parse merged.render = .ok result)
    (hb : (Frame.events merged.render).encode = .ok bytes) :
    Sends ⟨.syncEvents q, taken, .ok (some result)⟩ bytes
  | swap {taken : List Frame} {bytes : List UInt8} (hb : Frame.swapNow.encode = .ok bytes) :
    Sends ⟨.syncSwap, taken, .ok none⟩ bytes

/-- A turn took one frame of the kind that its call waits for from every peer. -/
structure Turn.TakesEach (peers : Nat) (t : Turn) : Prop where
  length : t.taken.length = peers
  kind : ∀ f ∈ t.taken, f.kind = t.call.requestKind

theorem Turn.sends_of_respond {c : Call} {frames : List Frame} {result : Option Queue}
    {bytes : List UInt8} (h : c.respond frames = .ok (result, bytes)) :
    Sends ⟨c, frames, .ok result⟩ bytes := by
  cases c with
  | syncSwap =>
    cases h
    exact .swap rfl
  | syncEvents q =>
    rw [Call.respond] at h
    cases hreply : Hub.reply q frames with
    | error e =>
      rw [hreply] at h
      cases h
    | ok found =>
      rw [hreply] at h
      cases h
      obtain ⟨merged, hm, hp, hb⟩ := Hub.exists_of_reply hreply
      exact .events hm hp hb

/-- The call and the frames decide what a hub's turn gives and sends. -/
theorem Turn.Sends.eq {c : Call} {taken : List Frame} {o o' : Outcome} {bytes bytes' : List UInt8}
    (h : Turn.Sends ⟨c, taken, o⟩ bytes) (h' : Turn.Sends ⟨c, taken, o'⟩ bytes')
    (hp : (⟨c, taken, o⟩ : Turn).Passed) (hp' : (⟨c, taken, o'⟩ : Turn).Passed) :
    o = o' ∧ bytes = bytes' := by
  cases h with
  | failed => exact absurd hp Turn.not_passed_error
  | events hm hr hb =>
    cases h' with
    | failed => exact absurd hp' Turn.not_passed_error
    | events hm' hr' hb' =>
      rw [hm] at hm'
      cases hm'
      rw [hr] at hr'
      rw [hb] at hb'
      cases hr'
      cases hb'
      exact ⟨rfl, rfl⟩
  | swap hb =>
    cases h' with
    | failed => exact absurd hp' Turn.not_passed_error
    | swap hb' =>
      rw [hb] at hb'
      cases hb'
      exact ⟨rfl, rfl⟩

theorem replies_eq {turns : List Turn} {replies replies' : List (List UInt8)}
    (h : List.Forall₂ Turn.Sends turns replies) (h' : List.Forall₂ Turn.Sends turns replies')
    (hp : ∀ t ∈ turns, t.Passed) : replies = replies' := by
  induction h generalizing replies' with
  | nil =>
    cases h'
    rfl
  | cons hsends _ ih =>
    cases h' with
    | cons hsends' hrest =>
      have hpassed := hp _ List.mem_cons_self
      rw [(hsends.eq hsends' hpassed hpassed).2,
        ih hrest fun t ht => hp t (List.mem_cons_of_mem _ ht)]

namespace Host

theorem map_sent_of_fill {want : Frame.Kind} {slots slots' : List (Option Frame)}
    {before links links' : List Link} (ht : Hub.TakenIn before links)
    (hf : Hub.fill want slots links = (.ok slots', links')) :
    links'.map Link.sent = before.map Link.sent := by
  have hsent := Hub.map_sent_fill want slots links
  rw [hf] at hsent
  exact hsent.trans ht.sent

/-- All links of a host were sent the same bytes, those of its turns. -/
def Uniform (h : Host) : Prop :=
  ∃ replies, List.Forall₂ Turn.Sends h.turns replies ∧ ∀ l ∈ h.hub.links, l.sent = replies.flatten

/-- From one state to the next, every link was sent the same bytes: those of the turn that ended, if
    one did. -/
def SendsOnce (h h' : Host) : Prop :=
  ∃ bytes, h'.hub.links.map Link.sent = h.hub.links.map (fun l => l.sent ++ bytes) ∧
    (h'.turns = h.turns ∧ bytes = [] ∨ ∃ t, h'.turns = h.turns ++ [t] ∧ t.Sends bytes)

theorem Step.sendsOnce {h h' : Host} {m : Move} (hs : Step h m h') : h.SendsOnce h' := by
  have hnothing : h.hub.links.map (fun l => l.sent ++ []) = h.hub.links.map Link.sent :=
    List.map_congr_left fun l _ => List.append_nil l.sent
  cases hs with
  | @news peer n =>
    have hreach : ∀ l, (n.reach l).sent = l.sent := fun l => by cases n <;> rfl
    exact ⟨[], (Hub.map_modify_self hreach ..).trans hnothing.symm, .inl ⟨rfl, rfl⟩⟩
  | stay hm => exact ⟨[], hnothing.symm, .inl ⟨rfl, rfl⟩⟩
  | fail hm hsent => exact ⟨[], hsent.trans hnothing.symm, .inr ⟨_, rfl, .failed⟩⟩
  | @wait _ c slots slots' links links' hm hu ht hf =>
    exact ⟨[], (map_sent_of_fill ht hf).trans hnothing.symm, .inl ⟨rfl, rfl⟩⟩
  | @pass _ c slots slots' links links' frames result bytes hm hu ht hf hc hr =>
    refine ⟨bytes, ?_, .inr ⟨_, rfl, Turn.sends_of_respond hr⟩⟩
    show (links'.map fun l => l.send bytes).map Link.sent = _
    have hsent := congrArg (List.map (· ++ bytes)) (map_sent_of_fill ht hf)
    rw [List.map_map, List.map_map] at hsent
    rw [List.map_map]
    exact hsent

theorem Uniform.sends_of_mem {h : Host} (hu : h.Uniform) {t : Turn} (ht : t ∈ h.turns) :
    ∃ bytes, t.Sends bytes := by
  obtain ⟨replies, hall, -⟩ := hu
  obtain ⟨i, hi, rfl⟩ := List.mem_iff_getElem.1 ht
  exact ⟨_, hall.get hi (hall.length_eq ▸ hi)⟩

theorem Uniform.step {h h' : Host} {m : Move} (hu : h.Uniform) (hs : Step h m h') : h'.Uniform := by
  obtain ⟨replies, hturns, hsent⟩ := hu
  obtain ⟨bytes, hlinks, hmove⟩ := hs.sendsOnce
  have hall : ∀ l ∈ h'.hub.links, l.sent = replies.flatten ++ bytes := by
    intro l hl
    have hmem : l.sent ∈ h.hub.links.map fun l => l.sent ++ bytes :=
      hlinks ▸ List.mem_map_of_mem hl
    obtain ⟨before, hbefore, heq⟩ := List.mem_map.1 hmem
    rw [← heq, hsent before hbefore]
  rcases hmove with ⟨hsame, rfl⟩ | ⟨t, hmore, ht⟩
  · exact ⟨replies, hsame ▸ hturns, fun l hl => by rw [hall l hl, List.append_nil]⟩
  · refine ⟨replies ++ [bytes], ?_, fun l hl => ?_⟩
    · rw [hmore]
      exact List.rel_append hturns (.cons ht .nil)
    · rw [hall l hl, List.flatten_append, List.flatten_singleton]

theorem uniform_start (peers timeout : Nat) : (start peers timeout).Uniform :=
  ⟨[], .nil, fun l hl => by
    rw [List.eq_of_mem_replicate hl]
    rfl⟩

theorem uniform_play (peers timeout : Nat) (moves : List Move) :
    ((start peers timeout).play moves).Uniform :=
  play_induction (fun hu hs => hu.step hs) (uniform_start peers timeout) moves

theorem Step.length_links {h h' : Host} {m : Move} (hs : Step h m h') :
    h'.hub.links.length = h.hub.links.length := by
  obtain ⟨bytes, hlinks, -⟩ := hs.sendsOnce
  have hlength := congrArg List.length hlinks
  rwa [List.length_map, List.length_map] at hlength

theorem Step.prefix_turns {h h' : Host} {m : Move} (hs : Step h m h') : h.turns <+: h'.turns := by
  obtain ⟨-, -, ⟨hsame, -⟩ | ⟨t, hmore, -⟩⟩ := hs.sendsOnce
  · exact hsame ▸ List.prefix_refl _
  · exact hmore ▸ List.prefix_append ..

theorem prefix_turns_play (h : Host) (moves : List Move) : h.turns <+: (h.play moves).turns :=
  play_induction (P := fun h' => h.turns <+: h'.turns)
    (fun hp hs => hp.trans hs.prefix_turns) (List.prefix_refl _) moves

/-! ## What calls take -/

/-- A host with a number of peers takes from each of them one frame of the kind that its call waits for. -/
structure Collects (peers : Nat) (h : Host) : Prop where
  links : h.hub.links.length = peers
  slots : ∀ {c slots}, h.pending = some (c, slots) →
    slots.length = peers ∧ ∀ f, some f ∈ slots → f.kind = c.requestKind
  taken : ∀ t ∈ h.turns, t.Passed → t.TakesEach peers

theorem Collects.under {peers : Nat} {h : Host} (hg : h.Collects peers) {c : Call}
    {slots : List (Option Frame)} (hu : h.Under c slots) :
    slots.length = peers ∧ ∀ f, some f ∈ slots → f.kind = c.requestKind := by
  rcases hu with hp | ⟨hp, rfl⟩
  · exact hg.slots hp
  · refine ⟨by rw [List.length_replicate, hg.links], fun f hf => ?_⟩
    cases List.eq_of_mem_replicate hf

theorem Collects.step {peers : Nat} {h h' : Host} {m : Move} (hg : h.Collects peers)
    (hs : Step h m h') : h'.Collects peers := by
  have hlinks := hs.length_links.trans hg.links
  have hlast : ∀ {t : Turn}, (t.Passed → t.TakesEach peers) →
      ∀ t' ∈ h.turns ++ [t], t'.Passed → t'.TakesEach peers := fun ht =>
    List.forall_mem_append.2 ⟨hg.taken, List.forall_mem_singleton.2 ht⟩
  cases hs with
  | news => exact ⟨hlinks, hg.slots, hg.taken⟩
  | stay => exact hg
  | fail => exact ⟨hlinks, nofun, hlast fun hpassed => absurd hpassed Turn.not_passed_error⟩
  | wait hm hu ht hf =>
    obtain ⟨hlength, hkinds⟩ := hg.under hu
    refine ⟨hlinks, fun hp => ?_, hg.taken⟩
    cases hp
    exact ⟨(Hub.length_fill hf).trans hlength, Hub.kind_of_mem_fill hf hkinds⟩
  | @pass _ c slots slots' links links' frames result bytes hm hu ht hf hc hr =>
    obtain ⟨hlength, hkinds⟩ := hg.under hu
    have hslots := Hub.complete_eq_some hc
    refine ⟨hlinks, nofun, hlast fun _ => ⟨?_, fun f hmem => ?_⟩⟩
    · rw [← hlength, ← Hub.length_fill hf, hslots, List.length_map]
    · exact Hub.kind_of_mem_fill hf hkinds f (hslots ▸ List.mem_map_of_mem hmem)

theorem collects_start (peers timeout : Nat) : (start peers timeout).Collects peers :=
  ⟨List.length_replicate, nofun, nofun⟩

theorem collects_play (peers timeout : Nat) (moves : List Move) :
    ((start peers timeout).play moves).Collects peers :=
  play_induction (fun hg hs => hg.step hs) (collects_start peers timeout) moves

/-- At every point of a run of a hub, all of its peers were sent the same bytes: those of one frame for
    each call that succeeded, in order, and nothing for a call that failed. What an events barrier gives
    is what is read in the frame that it sent. A call that succeeded took one frame of the kind that it
    waits for from every peer. And whatever comes next sends the same bytes to all of them, namely those
    of the call that it ends. Barriers that a hub goes through at once are such a run too. -/
theorem broadcast_uniform (peers timeout : Nat) :
    (∀ moves : List Move,
      ((start peers timeout).play moves).hub.links.length = peers ∧
        ((start peers timeout).play moves).Uniform ∧
        (∀ t ∈ ((start peers timeout).play moves).turns, t.Passed → t.TakesEach peers) ∧
        ∀ m, ((start peers timeout).play moves).SendsOnce
          (((start peers timeout).play moves).move m)) ∧
      ∀ acts : List Hub.Act, ∃ moves,
        ((start peers timeout).play moves).hub = ((Hub.start peers timeout).actAll acts).2 := by
  refine ⟨fun moves => ?_, fun acts => ?_⟩
  · have hcollects := collects_play peers timeout moves
    exact ⟨hcollects.links, uniform_play peers timeout moves, hcollects.taken,
      fun m => (step_move _ m).sendsOnce⟩
  · obtain ⟨moves, turns, hplay⟩ := exists_play_actAll (.start peers timeout) [] acts
    exact ⟨moves, congrArg Host.hub hplay⟩

/-- Requests of two peers, one of them behind a byte of noise, and after the swap another one for which
    the time is up. -/
def twoSwaps : List Move :=
  [.news 0 (.arrive [2]), .enter .syncSwap, .news 1 (.arrive [9, 2]), .poll [1], .enter .syncSwap, .expire]

theorem broadcast_uniform_swaps :
    ((start 2 5).play twoSwaps).turns =
        [⟨.syncSwap, [.swapRequest, .swapRequest], .ok none⟩, ⟨.syncSwap, [], .error (.timedOut 5)⟩] ∧
      (∃ t ∈ ((start 2 5).play twoSwaps).turns, t.Passed ∧ t.TakesEach 2) ∧
      ((start 2 5).play twoSwaps).Uniform ∧
      ((start 2 5).play twoSwaps).hub.links.map Link.sent = [[3], [3]] := by
  have hturns : ((start 2 5).play twoSwaps).turns =
      [⟨.syncSwap, [.swapRequest, .swapRequest], .ok none⟩, ⟨.syncSwap, [], .error (.timedOut 5)⟩] := by
    with_unfolding_all rfl
  have hsent : ((start 2 5).play twoSwaps).hub.links.map Link.sent = [[3], [3]] := by decide +kernel
  obtain ⟨hruns, -⟩ := broadcast_uniform 2 5
  obtain ⟨-, huniform, htakes, -⟩ := hruns twoSwaps
  have hfirst : (⟨.syncSwap, [.swapRequest, .swapRequest], .ok none⟩ : Turn) ∈
      ((start 2 5).play twoSwaps).turns := by
    rw [hturns]
    exact List.mem_cons_self
  exact ⟨hturns, ⟨_, hfirst, rfl, htakes _ hfirst rfl⟩, huniform, hsent⟩

end Host
end Lockstep
