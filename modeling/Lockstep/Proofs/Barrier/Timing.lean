import Lockstep.Proofs.Barrier.Broadcast
import Lockstep.Proofs.Barrier.Looks

/- When bytes arrive makes no difference.

   1. On every link of a host, and on that of a guest, the node follows the frames of its peer, and every
      move keeps that as long as no call fails (`Host.Follows.step`, `Guest.Follows.step`).
   2. So the frames that the calls take are known from the streams of the peers and from the calls
      alone (`Host.Succeeds.exists_takes`, `Guest.Succeeds.exists_takes`), and with them what every call
      gives and sends (`timing_independent`). The calls that a hub or a client goes through at once are
      among these runs (`Host.broadcast_uniform`, `Guest.exists_play_call`). -/
namespace Lockstep
open Barrier

/-! ## Hosts -/

namespace Host

/-- What the barrier under way waits for from a peer, and the frame that it took. -/
inductive Waits (h : Host) (peer : Nat) : Option (Frame.Kind × Option Frame) → Prop
  | idle (hp : h.pending = none) : Waits h peer none
  | under {c : Call} {slots : List (Option Frame)} {slot : Option Frame}
    (hp : h.pending = some (c, slots)) (hs : slots[peer]? = some slot) :
    Waits h peer (some (c.requestKind, slot))

theorem Waits.of_pending {h h' : Host} {peer : Nat} {barrier : Option (Frame.Kind × Option Frame)}
    (hw : h.Waits peer barrier) (hp : h'.pending = h.pending) : h'.Waits peer barrier := by
  cases hw with
  | idle hp' => exact .idle (hp.trans hp')
  | under hp' hs => exact .under (hp.trans hp') hs

/-- The link to a peer follows that peer's frames, of which each call took one. -/
def Follows (h : Host) (peer : Nat) (future : List UInt8) (frames : List Frame) : Prop :=
  ∃ l taken barrier, h.hub.links[peer]? = some l ∧
    h.turns.map (fun t => t.taken[peer]?) = taken.map some ∧ h.Waits peer barrier ∧
    l.Follows future frames (h.turns.map fun t => t.call.requestKind) taken barrier

section
variable {h h' : Host} {m : Move} {peer : Nat} {future : List UInt8} {frames : List Frame}

/-- A link that follows its peer's frames does so where a look begins. -/
theorem Follows.under (hf : h.Follows peer future frames) {c : Call} {slots : List (Option Frame)}
    (hu : h.Under c slots) :
    ∃ l taken slot, h.hub.links[peer]? = some l ∧ slots[peer]? = some slot ∧
      h.turns.map (fun t => t.taken[peer]?) = taken.map some ∧
      l.Follows future frames (h.turns.map fun t => t.call.requestKind) taken
        (some (c.requestKind, slot)) := by
  obtain ⟨l, taken, barrier, hl, htaken, hwaits, hlink⟩ := hf
  rcases hu with hp | ⟨hp, rfl⟩
  · cases hwaits with
    | idle hp' =>
      rw [hp] at hp'
      cases hp'
    | under hp' hs =>
      rw [hp] at hp'
      cases hp'
      exact ⟨l, taken, _, hl, hs, htaken, hlink⟩
  · cases hwaits with
    | under hp' hs =>
      rw [hp] at hp'
      cases hp'
    | idle hp' =>
      refine ⟨l, taken, none, hl, ?_, htaken, hlink.begin c.requestKind⟩
      rw [List.getElem?_replicate, if_pos (List.getElem?_eq_some_iff.1 hl).1]

/-- It goes on to do so in a look. -/
theorem Follows.fill (hf : h.Follows peer future frames) {c : Call}
    {slots slots' : List (Option Frame)} {links links' : List Link} (hu : h.Under c slots)
    (ht : Hub.TakenIn h.hub.links links)
    (hfill : Hub.fill c.requestKind slots links = (.ok slots', links')) :
    ∃ l taken slot, links'[peer]? = some l ∧ slots'[peer]? = some slot ∧
      h.turns.map (fun t => t.taken[peer]?) = taken.map some ∧
      l.Follows future frames (h.turns.map fun t => t.call.requestKind) taken
        (some (c.requestKind, slot)) := by
  obtain ⟨l, taken, slot, hl, hs, htaken, hlink⟩ := hf.under hu
  obtain ⟨l₁, hl₁, hunread⟩ : ∃ l₁, links[peer]? = some l₁ ∧ l₁.unread future = l.unread future := by
    have hmap := congrArg (·[peer]?) (ht.unread future)
    simp only [List.getElem?_map, hl, Option.map_some] at hmap
    exact Option.map_eq_some_iff.1 hmap
  obtain ⟨slot', l', hs', hl', hlook⟩ := Hub.getElem?_fill hfill hs hl₁
  refine ⟨l', taken, slot', hl', hs', htaken, ?_⟩
  have hlink₁ := hlink.of_unread hunread
  rcases hlook with ⟨rfl, rfl⟩ | ⟨rfl, reader, hnext, rfl⟩
  · exact hlink₁
  · obtain ⟨slot, hfound, hlink'⟩ := hlink₁.look hnext
    cases hfound
    exact hlink'

/-- A move that fails no call keeps a link with its peer's frames. -/
theorem Follows.step (hf : h.Follows peer (m.bytesFrom peer ++ future) frames) (hs : Step h m h')
    (hok : ∀ t ∈ h'.turns, t.Passed) : h'.Follows peer future frames := by
  cases hs with
  | @news peer' n =>
    obtain ⟨l, taken, barrier, hl, htaken, hwaits, hfollows⟩ := hf
    have hmodify : (h.hub.links.modify peer' fun l => n.reach l)[peer]? =
        some (if peer' = peer then n.reach l else l) := by
      rw [List.getElem?_modify, hl]
      split <;> rfl
    refine ⟨_, taken, barrier, hmodify, htaken, hwaits.of_pending rfl, ?_⟩
    rw [Move.bytesFrom] at hfollows
    split at hfollows
    · rename_i hp
      rw [if_pos hp]
      exact hfollows.of_unread (Link.unread_reach l n future)
    · rename_i hp
      rw [if_neg hp]
      exact hfollows
  | stay hm =>
    rw [hm] at hf
    exact hf
  | fail => exact absurd hok Turn.not_all_passed
  | wait hm hu ht hfill =>
    rw [hm] at hf
    obtain ⟨l, taken, slot, hl, hs, htaken, hfollows⟩ := Follows.fill hf hu ht hfill
    exact ⟨l, taken, _, hl, htaken, .under rfl hs, hfollows⟩
  | @pass _ c slots slots' links links' frames' result bytes hm hu ht hfill hc hr =>
    rw [hm] at hf
    obtain ⟨l, taken, slot, hl, hs, htaken, hfollows⟩ := Follows.fill hf hu ht hfill
    rw [Hub.complete_eq_some hc, List.getElem?_map] at hs
    obtain ⟨f, hframe, rfl⟩ := Option.map_eq_some_iff.1 hs
    have hlink : (links'.map fun l => l.send bytes)[peer]? = some (l.send bytes) := by
      rw [List.getElem?_map, hl]
      rfl
    refine ⟨l.send bytes, taken ++ [f], none, hlink, ?_, .idle rfl, ?_⟩
    · rw [List.map_append, htaken, List.map_append, List.map_singleton, hframe]
      rfl
    · rw [List.map_append]
      exact hfollows.pass.of_unread rfl

/-- A run in which no call failed keeps a link with its peer's frames. -/
theorem Follows.play {moves : List Move}
    (hf : h.Follows peer (moves.flatMap (Move.bytesFrom peer) ++ future) frames)
    (hok : ∀ t ∈ (h.play moves).turns, t.Passed) : (h.play moves).Follows peer future frames := by
  induction moves generalizing h with
  | nil => exact hf
  | cons m moves ih =>
    rw [List.flatMap_cons, List.append_assoc] at hf
    refine ih (hf.step (step_move h m) fun t ht => ?_) hok
    exact hok t ((prefix_turns_play (h.move m) moves).subset ht)

theorem follows_start (timeout : Nat) {peers : Nat} (hp : peer < peers)
    (hd : (⟨future⟩ : Reader).drain.1 = frames.map .ok) :
    (start peers timeout).Follows peer future frames := by
  have hlink : (List.replicate peers Link.fresh)[peer]? = some .fresh := by
    rw [List.getElem?_replicate, if_pos hp]
  exact ⟨.fresh, [], none, hlink, rfl, .idle rfl, frames, rfl, hd⟩

end

/-- A run in which the peers sent beginnings of some streams and no call failed. -/
structure Succeeds (peers timeout : Nat) (streams : Nat → List UInt8) (moves : List Move) : Prop where
  bytes : ∀ peer < peers, moves.flatMap (Move.bytesFrom peer) <+: streams peer
  passed : ∀ t ∈ ((start peers timeout).play moves).turns, t.Passed

section
variable {peers timeout timeout' : Nat} {streams : Nat → List UInt8} {frames : Nat → List Frame}
  {moves moves' : List Move}

/-- What the calls took from a peer, and what is left to be read from it. -/
theorem Succeeds.exists_takes (h : Succeeds peers timeout streams moves) {peer : Nat}
    (hp : peer < peers) (hd : (⟨streams peer⟩ : Reader).drain.1 = (frames peer).map .ok) :
    ∃ left future, streams peer = moves.flatMap (Move.bytesFrom peer) ++ future ∧
      Takes Call.requestKind ((start peers timeout).play moves).turns peer (frames peer) left ∧
      (((start peers timeout).play moves).pending = none →
        ∀ l, ((start peers timeout).play moves).hub.links[peer]? = some l → l.Brings future left) := by
  obtain ⟨future, hfuture⟩ := h.bytes peer hp
  obtain ⟨l, taken, barrier, hl, htaken, hwaits, hlink⟩ :=
    (follows_start timeout hp (hfuture.symm ▸ hd)).play h.passed
  cases hwaits with
  | idle hidle =>
    obtain ⟨left, hpick, hbrings⟩ := hlink
    refine ⟨left, future, hfuture.symm, ⟨taken, hpick, htaken⟩, fun _ l' hl' => ?_⟩
    rw [hl] at hl'
    exact Option.some.inj hl' ▸ hbrings
  | under hunder hs =>
    obtain ⟨left, -, hpick, -⟩ := hlink
    refine ⟨left, future, hfuture.symm, ⟨taken, hpick, htaken⟩, fun hidle => ?_⟩
    rw [hidle] at hunder
    cases hunder

/-- Two runs that deliver the same streams, with the same calls, have the same turns. -/
theorem Succeeds.turns_eq (h : Succeeds peers timeout streams moves)
    (h' : Succeeds peers timeout' streams moves')
    (hd : ∀ peer < peers, (⟨streams peer⟩ : Reader).drain.1 = (frames peer).map .ok)
    (hc : ((start peers timeout).play moves).turns.map Turn.call =
      ((start peers timeout').play moves').turns.map Turn.call) :
    ((start peers timeout).play moves).turns = ((start peers timeout').play moves').turns := by
  refine Lockstep.turns_eq peers hc (fun t ht => ((collects_play ..).taken t ht (h.passed t ht)).length)
    (fun t ht => ((collects_play ..).taken t ht (h'.passed t ht)).length) (fun peer hp => ?_)
    fun t ht t' ht' hcall htaken => ?_
  · obtain ⟨left, -, -, htakes, -⟩ := h.exists_takes hp (hd peer hp)
    obtain ⟨left', -, -, htakes', -⟩ := h'.exists_takes hp (hd peer hp)
    exact htakes.eq htakes' hc
  · obtain ⟨bytes, hsends⟩ := (uniform_play ..).sends_of_mem ht
    obtain ⟨bytes', hsends'⟩ := (uniform_play ..).sends_of_mem ht'
    have hpassed := h.passed t ht
    have hpassed' := h'.passed t' ht'
    obtain ⟨c, taken, o⟩ := t
    obtain ⟨c', taken', o'⟩ := t'
    cases hcall
    cases htaken
    exact (hsends.eq hsends' hpassed hpassed').1

end

end Host

/-! ## Guests -/

namespace Guest

/-- The link to the server follows the server's frames, of which each call took one. -/
def Follows (g : Guest) (future : List UInt8) (frames : List Frame) : Prop :=
  ∃ taken, g.turns.map (fun t => t.taken[0]?) = taken.map some ∧
    g.member.link.Follows future frames (g.turns.map fun t => t.call.answerKind) taken
      (g.pending.map fun c => (c.answerKind, none))

/-- The calls for which a client sent its request. -/
def asked (g : Guest) : List Call := g.turns.map Turn.call ++ g.pending.toList

/-- All that was sent are the requests of the calls. -/
def Asks (g : Guest) : Prop :=
  g.member.link.sent = g.asked.flatMap fun c => c.request.encode.toOption.getD []

/-- A call that passed gave what is in the frame that it took. -/
def Answers (g : Guest) : Prop :=
  ∀ t ∈ g.turns, t.Passed → ∃ f, t.taken = [f] ∧ t.outcome = outcomeOf f

section
variable {g g' : Guest} {m : Move} {future : List UInt8} {frames : List Frame}

/-- A link that follows the server's frames does so where a look begins. -/
theorem Follows.under (hf : g.Follows future frames) {c : Call} {l : Link} (hu : g.Under c l) :
    ∃ taken, g.turns.map (fun t => t.taken[0]?) = taken.map some ∧
      l.Follows future frames (g.turns.map fun t => t.call.answerKind) taken
        (some (c.answerKind, none)) := by
  obtain ⟨taken, htaken, hlink⟩ := hf
  refine ⟨taken, htaken, ?_⟩
  cases hu with
  | begins hp hb =>
    rw [hp] at hlink
    exact Link.Follows.begin (Link.Follows.of_unread hlink rfl) c.answerKind
  | goesOn n hp =>
    rw [hp] at hlink
    exact Link.Follows.of_unread hlink (Link.unread_takeIn ..)

/-- A move that fails no call keeps the link with the server's frames. -/
theorem Follows.step (hf : g.Follows (m.bytes ++ future) frames) (hs : Step g m g')
    (hok : ∀ t ∈ g'.turns, t.Passed) : g'.Follows future frames := by
  cases hs with
  | @news n =>
    obtain ⟨taken, htaken, hlink⟩ := hf
    exact ⟨taken, htaken, hlink.of_unread (Link.unread_reach ..)⟩
  | stay hm =>
    rw [hm] at hf
    exact hf
  | fail => exact absurd hok Turn.not_all_passed
  | wait hm hu hn =>
    rw [hm] at hf
    obtain ⟨taken, htaken, hlink⟩ := Follows.under hf hu
    obtain ⟨slot, hfound, hlink'⟩ := hlink.look hn
    cases hfound
    exact ⟨taken, htaken, hlink'⟩
  | @pass _ c l reader f hm hu hn =>
    rw [hm] at hf
    obtain ⟨taken, htaken, hlink⟩ := Follows.under hf hu
    obtain ⟨slot, hfound, hlink'⟩ := hlink.look hn
    cases hfound
    refine ⟨taken ++ [f], ?_, ?_⟩
    · rw [settle, List.map_append, htaken, List.map_append]
      rfl
    · rw [settle, List.map_append]
      exact hlink'.pass

theorem Asks.under (ha : g.Asks) {c : Call} {l : Link} (hu : g.Under c l) :
    l.sent = (g.turns.map Turn.call ++ [c]).flatMap fun c => c.request.encode.toOption.getD [] := by
  cases hu with
  | begins hp hb =>
    rw [Asks, asked, hp, Option.toList_none, List.append_nil] at ha
    rw [List.flatMap_append, List.flatMap_singleton, hb, ← ha]
    rfl
  | goesOn n hp =>
    rw [Asks, asked, hp] at ha
    exact ha

theorem Asks.step (ha : g.Asks) (hs : Step g m g') (hok : ∀ t ∈ g'.turns, t.Passed) :
    g'.Asks := by
  cases hs with
  | @news n => cases n <;> exact ha
  | stay hm => exact ha
  | fail => exact absurd hok Turn.not_all_passed
  | wait hm hu hn =>
    have hsent := ha.under hu
    exact hsent
  | pass hm hu hn =>
    have hsent := ha.under hu
    rw [Asks, asked, settle, List.map_append, Option.toList_none, List.append_nil]
    exact hsent

theorem Answers.step (ha : g.Answers) (hs : Step g m g') : g'.Answers := by
  have hlast : ∀ {t : Turn}, (t.Passed → ∃ f, t.taken = [f] ∧ t.outcome = outcomeOf f) →
      ∀ t' ∈ g.turns ++ [t], t'.Passed → ∃ f, t'.taken = [f] ∧ t'.outcome = outcomeOf f :=
    fun ht => List.forall_mem_append.2 ⟨ha, List.forall_mem_singleton.2 ht⟩
  cases hs with
  | news | stay | wait => exact ha
  | fail => exact hlast fun hpassed => absurd hpassed Turn.not_passed_error
  | pass => exact hlast fun _ => ⟨_, rfl, rfl⟩

theorem Step.prefix_turns (hs : Step g m g') : g.turns <+: g'.turns := by
  cases hs with
  | news | stay | wait => exact List.prefix_refl _
  | fail | pass => exact List.prefix_append ..

theorem prefix_turns_play (g : Guest) (moves : List Move) : g.turns <+: (g.play moves).turns := by
  induction moves generalizing g with
  | nil => exact List.prefix_refl _
  | cons m moves ih => exact (step_move g m).prefix_turns.trans (ih (g.move m))

/-- What every move keeps that fails no call, a run keeps in which no call failed. -/
theorem play_induction {P : List UInt8 → Guest → Prop} (future : List UInt8)
    (hstep : ∀ {g g' m future}, P (m.bytes ++ future) g → Step g m g' →
      (∀ t ∈ g'.turns, t.Passed) → P future g') {g : Guest} {moves : List Move}
    (hp : P (moves.flatMap Move.bytes ++ future) g) (hok : ∀ t ∈ (g.play moves).turns, t.Passed) :
    P future (g.play moves) := by
  induction moves generalizing g with
  | nil => exact hp
  | cons m moves ih =>
    rw [List.flatMap_cons, List.append_assoc] at hp
    refine ih (hstep hp (step_move g m) fun t ht => ?_) hok
    exact hok t ((prefix_turns_play (g.move m) moves).subset ht)

end

/-- A run in which the server sent the beginning of a stream and no call failed. -/
structure Succeeds (timeout : Nat) (stream : List UInt8) (moves : List Move) : Prop where
  bytes : moves.flatMap Move.bytes <+: stream
  passed : ∀ t ∈ ((start timeout).play moves).turns, t.Passed

section
variable {timeout timeout' : Nat} {stream : List UInt8} {frames : List Frame}
  {moves moves' : List Move}

theorem Succeeds.asks (h : Succeeds timeout stream moves) : ((start timeout).play moves).Asks :=
  play_induction (P := fun _ => Asks) [] (fun ha hs hok => ha.step hs hok) rfl h.passed

theorem Succeeds.answers (h : Succeeds timeout stream moves) :
    ((start timeout).play moves).Answers :=
  play_induction (P := fun _ => Answers) [] (fun ha hs _ => ha.step hs) nofun h.passed

/-- What the calls took from the server, and what is left to be read from it. -/
theorem Succeeds.exists_takes (h : Succeeds timeout stream moves)
    (hd : (⟨stream⟩ : Reader).drain.1 = frames.map .ok) :
    ∃ left future, stream = moves.flatMap Move.bytes ++ future ∧
      Takes Call.answerKind ((start timeout).play moves).turns 0 frames left ∧
      (((start timeout).play moves).pending = none →
        ((start timeout).play moves).member.link.Brings future left) := by
  obtain ⟨future, hfuture⟩ := h.bytes
  have hstart : (start timeout).Follows (moves.flatMap Move.bytes ++ future) frames :=
    ⟨[], rfl, frames, rfl, hfuture.symm ▸ hd⟩
  obtain ⟨taken, htaken, hlink⟩ := play_induction (P := fun future g => g.Follows future frames)
    future (fun hf hs hok => hf.step hs hok) hstart h.passed
  cases hp : ((start timeout).play moves).pending with
  | none =>
    rw [hp] at hlink
    obtain ⟨left, hpick, hbrings⟩ := hlink
    exact ⟨left, future, hfuture.symm, ⟨taken, hpick, htaken⟩, fun _ => hbrings⟩
  | some c =>
    rw [hp] at hlink
    obtain ⟨left, -, hpick, -⟩ := hlink
    exact ⟨left, future, hfuture.symm, ⟨taken, hpick, htaken⟩, nofun⟩

/-- Two runs that deliver the same stream, with the same calls, have the same turns. -/
theorem Succeeds.turns_eq (h : Succeeds timeout stream moves)
    (h' : Succeeds timeout' stream moves') (hd : (⟨stream⟩ : Reader).drain.1 = frames.map .ok)
    (hc : ((start timeout).play moves).turns.map Turn.call =
      ((start timeout').play moves').turns.map Turn.call) :
    ((start timeout).play moves).turns = ((start timeout').play moves').turns := by
  have hone : ∀ {timeout moves}, Succeeds timeout stream moves →
      ∀ t ∈ ((start timeout).play moves).turns, t.taken.length = 1 := by
    intro timeout moves h t ht
    obtain ⟨f, htaken, -⟩ := h.answers t ht (h.passed t ht)
    rw [htaken]
    rfl
  refine Lockstep.turns_eq 1 hc (hone h) (hone h') (fun peer hp => ?_) fun t ht t' ht' _ htaken => ?_
  · obtain ⟨left, -, -, htakes, -⟩ := h.exists_takes hd
    obtain ⟨left', -, -, htakes', -⟩ := h'.exists_takes hd
    rw [Nat.lt_one_iff.1 hp]
    exact htakes.eq htakes' hc
  · obtain ⟨f, hf, ho⟩ := h.answers t ht (h.passed t ht)
    obtain ⟨f', hf', ho'⟩ := h'.answers t' ht' (h'.passed t' ht')
    rw [hf, hf'] at htaken
    rw [ho, ho', (List.cons.inj htaken).1]

end

end Guest

/-! ## Any two schedules -/

/-- Runs in which every stream holds frames only, and no call failed, agree on all that calls give and
    send when they make the same calls, whatever the pieces in which the streams arrive and whenever
    they do. From a stream, each call takes the first frame of the kind that it waits for behind the
    one that the call before it took; the frames behind that are left for later calls. This is so for a
    hub and its peers, and for a client and its server. A call that a client goes through at once is such
    a run too: it takes in chunks until it has its answer, and the time is up if it has none. -/
theorem timing_independent :
    (∀ {peers timeout timeout' : Nat} {streams : Nat → List UInt8} {frames : Nat → List Frame}
      {moves moves' : List Host.Move} {h h' : Host},
      (∀ peer < peers, (⟨streams peer⟩ : Reader).drain.1 = (frames peer).map .ok) →
      Host.Succeeds peers timeout streams moves → Host.Succeeds peers timeout' streams moves' →
      h = (Host.start peers timeout).play moves → h' = (Host.start peers timeout').play moves' →
      h.turns.map Turn.call = h'.turns.map Turn.call →
      h.turns = h'.turns ∧
        (∃ replies, List.Forall₂ Turn.Sends h.turns replies ∧
          (∀ l ∈ h.hub.links, l.sent = replies.flatten) ∧
          ∀ l ∈ h'.hub.links, l.sent = replies.flatten) ∧
        ∀ peer < peers, ∃ left future,
          streams peer = moves.flatMap (Host.Move.bytesFrom peer) ++ future ∧
          Takes Call.requestKind h.turns peer (frames peer) left ∧
          (h.pending = none → ∀ l, h.hub.links[peer]? = some l → l.Brings future left)) ∧
    (∀ {timeout timeout' : Nat} {stream : List UInt8} {frames : List Frame}
      {moves moves' : List Guest.Move} {g g' : Guest},
      (⟨stream⟩ : Reader).drain.1 = frames.map .ok →
      Guest.Succeeds timeout stream moves → Guest.Succeeds timeout' stream moves' →
      g = (Guest.start timeout).play moves → g' = (Guest.start timeout').play moves' →
      g.turns.map Turn.call = g'.turns.map Turn.call →
      g.turns = g'.turns ∧
        (g.pending = none → g'.pending = none → g.member.link.sent = g'.member.link.sent) ∧
        ∃ left future, stream = moves.flatMap Guest.Move.bytes ++ future ∧
          Takes Call.answerKind g.turns 0 frames left ∧
          (g.pending = none → g.member.link.Brings future left)) ∧
    ∀ (m : Member) (turns : List Turn) (c : Call), ∃ reads taken,
      (⟨m, none, turns⟩ : Guest).play (.enter c :: (List.replicate reads .read ++ [.expire])) =
        ⟨(m.call c).2, none, turns ++ [⟨c, taken, (m.call c).1⟩]⟩ := by
  refine ⟨?_, ?_, Guest.exists_play_call⟩
  · rintro peers timeout timeout' streams frames moves moves' _ _ hd h h' rfl rfl hc
    have hturns := h.turns_eq h' hd hc
    obtain ⟨replies, hall, hsent⟩ := Host.uniform_play peers timeout moves
    obtain ⟨replies', hall', hsent'⟩ := Host.uniform_play peers timeout' moves'
    rw [← hturns] at hall'
    have hreplies := replies_eq hall hall' h.passed
    exact ⟨hturns, ⟨replies, hall, hsent, hreplies ▸ hsent'⟩, fun peer hp =>
      h.exists_takes hp (hd peer hp)⟩
  · rintro timeout timeout' stream frames moves moves' _ _ hd h h' rfl rfl hc
    refine ⟨h.turns_eq h' hd hc, fun hp hp' => ?_, h.exists_takes hd⟩
    have hsent := h.asks
    have hsent' := h'.asks
    rw [Guest.Asks, Guest.asked, hp] at hsent
    rw [Guest.Asks, Guest.asked, hp'] at hsent'
    rw [hsent, hsent', hc]

namespace Pieces

/-- The streams of two peers: a request before its time, noise, and frames that no call will take. -/
def streams (peer : Nat) : List UInt8 :=
  if peer = 0 then [2, 1, 0, 0, 0, 0, 9, 2, 3] else [1, 0, 0, 0, 0, 2, 2]

def frames (peer : Nat) : List Frame :=
  if peer = 0 then [.swapRequest, .events "", .swapRequest, .swapNow]
  else [.events "", .swapRequest, .swapRequest]

/-- The stream of a server. -/
def answers : List UInt8 := [3, 1, 0, 0, 0, 0, 7, 3, 3]

def own : Queue := ⟨[(⟨5, 0⟩, .written "<a/>b&lt;")], List.pairwise_singleton ..⟩

/-- All bytes arrive before the first call. -/
def atOnce : List Host.Move :=
  [.news 0 (.arrive (streams 0)), .news 1 (.arrive (streams 1)), .enter (.syncEvents own),
    .enter .syncSwap]

/-- Bytes arrive while calls are under way, and one of them never does. -/
def slowly : List Host.Move :=
  [.enter (.syncEvents own), .news 0 (.arrive [2, 1, 0]), .poll [0],
    .news 1 (.arrive [1, 0, 0, 0, 0, 2]), .poll [1], .news 0 (.arrive [0, 0, 0, 9]), .poll [1, 0],
    .enter .syncSwap, .news 0 (.arrive [2, 3]), .poll [0]]

def guestAtOnce : List Guest.Move :=
  [.news (.arrive answers), .enter (.syncEvents own), .read, .enter .syncSwap]

def guestSlowly : List Guest.Move :=
  [.enter (.syncEvents own), .news (.arrive [3, 1, 0]), .read, .news (.arrive [0, 0, 0]), .read,
    .enter .syncSwap, .read, .news (.arrive [7, 3]), .read]

/-- Two runs of a hub with two peers, and two of a client. -/
theorem timing_independent_pieces :
    ((Host.start 2 5).play atOnce).turns = ((Host.start 2 9).play slowly).turns ∧
      ((Host.start 2 5).play atOnce).turns.map Turn.taken =
        [[.events "", .events ""], [.swapRequest, .swapRequest]] ∧
      (∀ peer < 2, ∃ left, Takes Call.requestKind ((Host.start 2 9).play slowly).turns peer
        (frames peer) left) ∧
      ((Guest.start 5).play guestAtOnce).turns = ((Guest.start 9).play guestSlowly).turns ∧
      ((Guest.start 5).play guestAtOnce).turns.map Turn.taken = [[.events ""], [.swapNow]] ∧
      ((Guest.start 5).play guestAtOnce).member.link.sent =
        ((Guest.start 9).play guestSlowly).member.link.sent := by
  obtain ⟨hhost, hguest, -⟩ := timing_independent
  have hfirst : Host.Succeeds 2 5 streams atOnce := by constructor <;> decide +kernel
  have hsecond : Host.Succeeds 2 9 streams slowly := by constructor <;> decide +kernel
  have hcalls : ((Host.start 2 5).play atOnce).turns.map Turn.call =
      ((Host.start 2 9).play slowly).turns.map Turn.call := by
    with_unfolding_all rfl
  have hfirst' : Guest.Succeeds 5 answers guestAtOnce := by constructor <;> decide +kernel
  have hsecond' : Guest.Succeeds 9 answers guestSlowly := by constructor <;> decide +kernel
  have hcalls' : ((Guest.start 5).play guestAtOnce).turns.map Turn.call =
      ((Guest.start 9).play guestSlowly).turns.map Turn.call := by
    with_unfolding_all rfl
  have hframes : ∀ peer < 2, (⟨streams peer⟩ : Reader).drain.1 = (frames peer).map .ok := by
    decide +kernel
  have hanswers : (⟨answers⟩ : Reader).drain.1 =
      [Frame.swapNow, .events "", .swapNow, .swapNow].map .ok := by
    decide +kernel
  have htaken : ((Host.start 2 5).play atOnce).turns.map Turn.taken =
      [[.events "", .events ""], [.swapRequest, .swapRequest]] := by
    decide +kernel
  have htaken' : ((Guest.start 5).play guestAtOnce).turns.map Turn.taken =
      [[.events ""], [.swapNow]] := by
    decide +kernel
  obtain ⟨hturns, -, htakes⟩ := hhost hframes hfirst hsecond rfl rfl hcalls
  obtain ⟨hturns', hsent, -⟩ := hguest hanswers hfirst' hsecond' rfl rfl hcalls'
  refine ⟨hturns, htaken, fun peer hp => ?_, hturns', htaken', hsent ?_ ?_⟩
  · obtain ⟨left, -, -, htakes, -⟩ := htakes peer hp
    exact ⟨left, hturns ▸ htakes⟩
  · with_unfolding_all rfl
  · with_unfolding_all rfl

end Pieces
end Lockstep
