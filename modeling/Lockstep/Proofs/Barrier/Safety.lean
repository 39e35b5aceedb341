import Lockstep.Proofs.Barrier.Record
import Lockstep.Proofs.Barrier.Runs

/- No barrier is passed before every peer is there.

   1. Every barrier that was passed took a frame of its own from every port, so there are no more of
      them than frames read on any port (`Port.Records.countP_le_decoded`). A hub sends one answer at
      most in each of them (`Port.Answered.sentOf_le`).
   2. A client reads no more frames than are in the bytes of which it received some
      (`Port.Records.decoded_le_sentOf`). So it passes no more swap barriers than there are requests
      that the hub read from any peer (`Party.Records.passedOf_le_decoded`).
   3. This is said of parties, and every run of a hub or a client is one of a party
      (`Party.barrier_safe`). -/
namespace Lockstep
open Lockstep.Frame

theorem Reader.error_not_mem_frames (e : Frame.Error) (frames : List Frame) :
    .error e ∉ frames.map (Except.ok : Frame → Except Frame.Error Frame) := by
  intro he
  obtain ⟨f, -, hf⟩ := List.mem_map.1 he
  cases hf

/-- A reader that holds frames gives just them. -/
theorem Reader.drain_of_frames {held : List UInt8} {frames : List Frame}
    (h : Reads held (frames.map .ok) []) : (⟨held⟩ : Reader).drain.1 = frames.map .ok := by
  obtain ⟨pieces, hframed, hheld, hgives⟩ := h.framed fun _ => error_not_mem_frames _ frames
  have hempty : (⟨[]⟩ : Reader).drain = ([], ⟨[]⟩) := drain_of_next_none rfl
  rw [hheld, drain_flatMap_append hframed, hempty, hgives, List.append_nil]

theorem Frame.Kind.countP_gaveBy (k : Frame.Kind) (frames : List Frame) :
    (frames.map (Except.ok : Frame → Except Frame.Error Frame)).countP k.gaveBy =
      (frames.map Frame.kind).count k := by
  rw [List.countP_map, List.count, List.countP_map]
  exact List.countP_congr fun f _ => by
    simp only [Function.comp_apply, gaveBy, beq_iff_eq, decide_eq_true_eq]

namespace Port
variable {want : Option Frame.Kind} {ended : Nat} {passed : List (Nat × Frame.Kind)} {p : Port}

/-- What barriers took was read. -/
theorem countP_takings_le (p : Port) (k : Frame.Kind) :
    (p.takings.countP fun b => b.2 = k) ≤ p.decoded k := by
  rw [takings, List.countP_filterMap]
  apply List.countP_mono_left
  rintro ⟨result, takenBy⟩ - htaking
  cases result with
  | error e => cases htaking
  | ok f =>
    cases takenBy with
    | none => cases htaking
    | some barrier => exact htaking

/-- There are no more barriers passed than frames read. -/
theorem Records.countP_le_decoded (h : p.Records want ended passed) (k : Frame.Kind) :
    (passed.countP fun b => b.2 = k) ≤ p.decoded k :=
  Nat.le_trans h.passed.countP_le (p.countP_takings_le k)

/-- A hub answers a barrier once at most. -/
theorem Answered.sentOf_le (h : p.Answered passed) (k : Frame.Kind) :
    p.sentOf k ≤ passed.countP fun b => b.2.answer = k := by
  obtain ⟨frames, hreads, hsub⟩ := h
  calc p.sentOf k
      = (frames.map Frame.kind).count k := by
        rw [sentOf, Reader.drain_of_frames hreads, Kind.countP_gaveBy]
    _ ≤ (passed.map fun b => b.2.answer).count k := hsub.count_le k
    _ = passed.countP fun b => b.2.answer = k := by
        rw [List.count, List.countP_map]
        exact List.countP_congr fun b _ => by
          simp only [Function.comp_apply, beq_iff_eq, decide_eq_true_eq]

/-- A port that received some of the bytes that another sent reads no more frames than were sent. -/
theorem Records.decoded_le_sentOf (h : p.Records want ended passed) {q : Port}
    {answered : List (Nat × Frame.Kind)} (hq : q.Answered answered)
    (hp : p.received <+: q.link.sent) (k : Frame.Kind) : p.decoded k ≤ q.sentOf k := by
  obtain ⟨frames, hreads, -⟩ := hq
  have hdrain := Reader.drain_of_frames hreads
  have hprefix : p.readings.map Reading.result <+: (⟨q.link.sent⟩ : Reader).drain.1 := by
    apply Reader.prefix_drain h.reads hp
    intro size
    rw [hdrain]
    exact Reader.error_not_mem_frames _ frames
  calc p.decoded k
      = (p.readings.map Reading.result).countP k.gaveBy := by
        rw [List.countP_map]
        rfl
    _ ≤ q.sentOf k := hprefix.countP_le

end Port

namespace Party
variable {s : Party}

/-- The numbers of swap barriers and of events barriers that a hub passed, counted by its answers. -/
theorem Records.sentOf_le (h : s.Records .hub) {p : Port} (hp : p ∈ s.ports) :
    p.sentOf .swapNow ≤ s.passedOf .swapRequest ∧ p.sentOf .events ≤ s.passedOf .events := by
  have hanswered := h.answered rfl p hp
  constructor
  · apply Nat.le_trans (hanswered.sentOf_le .swapNow)
    apply List.countP_mono_left
    intro b hb hanswer
    rcases (h.passed b hb).2 with hkind | hkind
    · rw [hkind] at hanswer
      cases of_decide_eq_true hanswer
    · exact decide_eq_true hkind
  · apply Nat.le_trans (hanswered.sentOf_le .events)
    apply List.countP_mono_left
    intro b hb hanswer
    rcases (h.passed b hb).2 with hkind | hkind
    · exact decide_eq_true hkind
    · rw [hkind] at hanswer
      cases of_decide_eq_true hanswer

theorem Records.passedOf_le_decoded {role : Role} (h : s.Records role) {q : Port}
    (hq : q ∈ s.ports) (k : Frame.Kind) : s.passedOf k ≤ q.decoded k :=
  (h.ports q hq).countP_le_decoded k

/-- What is safe about a hub at any point of a run. -/
structure Safe (s : Party) : Prop where
  /-- The ports keep the record of what was read, and of which barrier took it. -/
  records : s.Records .hub
  /-- Releases are no more than the requests that were read from any peer. -/
  releases : ∀ p ∈ s.ports, ∀ q ∈ s.ports, p.sentOf .swapNow ≤ q.decoded .swapRequest
  /-- Merged queues are no more than the queues that were read from any peer. -/
  replies : ∀ p ∈ s.ports, ∀ q ∈ s.ports, p.sentOf .events ≤ q.decoded .events
  /-- A client passes no more swap barriers than there are requests that were read from any peer. -/
  clients : ∀ c : Party, (start 1).Reach .member c → ∀ d ∈ c.ports, ∀ p ∈ s.ports,
    d.received <+: p.link.sent → ∀ q ∈ s.ports, c.passedOf .swapNow ≤ q.decoded .swapRequest

theorem Records.safe (h : s.Records .hub) : s.Safe where
  records := h
  releases := fun p hp q hq => Nat.le_trans (h.sentOf_le hp).1 (h.passedOf_le_decoded hq _)
  replies := fun p hp q hq => Nat.le_trans (h.sentOf_le hp).2 (h.passedOf_le_decoded hq _)
  clients := by
    intro c hc d hd p hp hprefix q hq
    have hrecords := (records_start .member 1).reach hc
    calc c.passedOf .swapNow
        ≤ d.decoded .swapNow := hrecords.passedOf_le_decoded hd _
      _ ≤ p.sentOf .swapNow :=
          (hrecords.ports d hd).decoded_le_sentOf (h.answered rfl p hp) hprefix _
      _ ≤ s.passedOf .swapRequest := (h.sentOf_le hp).1
      _ ≤ q.decoded .swapRequest := h.passedOf_le_decoded hq _

theorem passedOf_eq_count (k : Frame.Kind) (s : Party) :
    s.passedOf k = (s.passed.map Prod.snd).count k := by
  rw [passedOf, List.count, List.countP_map]
  exact List.countP_congr fun b _ => by
    simp only [Function.comp_apply, beq_iff_eq, decide_eq_true_eq]

/-- A hub among any peers is safe at every point of every run, and whatever a hub or a client does is
    such a run. -/
theorem barrier_safe (peers timeout : Nat) :
    (∀ s : Party, (start peers).Reach .hub s → s.Safe) ∧
      (∀ acts : List Hub.Act, ∃ s : Party, (start peers).Reach .hub s ∧
        s.Shows ((Hub.start peers timeout).actAll acts).2.links
          ((Hub.start peers timeout).actAll acts).1
          ((List.range peers).map fun peer => acts.flatMap (Hub.Act.bytesFrom peer))) ∧
      ∀ acts : List Member.Act, ∃ c : Party, (start 1).Reach .member c ∧
        c.Shows [((Member.start timeout).actAll acts).2.link]
          ((Member.start timeout).actAll acts).1 [acts.flatMap Member.Act.bytes] := by
  refine ⟨fun s hs => ((records_start .hub peers).reach hs).safe, fun acts => ?_, fun acts => ?_⟩
  · obtain ⟨s, hs, hshows⟩ :=
      (shows_start peers).hub_actAll (h := Hub.start peers timeout) acts
    refine ⟨s, hs, ?_⟩
    have hbytes : ((List.replicate peers []).mapIdx fun i got =>
        got ++ acts.flatMap (Hub.Act.bytesFrom i)) =
          (List.range peers).map fun peer => acts.flatMap (Hub.Act.bytesFrom peer) := by
      refine List.ext_getElem? fun i => ?_
      rw [List.getElem?_mapIdx, List.getElem?_replicate, List.getElem?_map]
      by_cases hi : i < peers
      · rw [if_pos hi, List.getElem?_range hi]
        rfl
      · rw [if_neg hi, List.getElem?_eq_none (by rw [List.length_range]; omega)]
        rfl
    rw [List.nil_append, hbytes] at hshows
    exact hshows
  · exact (shows_start 1).member_actAll (m := Member.start timeout) acts

/-- Two peers, of which the second sends noise first and is ahead of the other: the hub releases both
    once and fails the next barrier. The first peer has passed one swap barrier then. -/
theorem barrier_safe_ahead :
    ∃ s c : Party, (start 2).Reach .hub s ∧ (start 1).Reach .member c ∧
      s.passed.map Prod.snd = [.swapRequest] ∧ s.ports.map Port.received = [[2], [9, 2, 2]] ∧
      s.ports.map Port.link = List.replicate 2 ⟨[], ⟨[]⟩, false, [3]⟩ ∧
      c.ports.map Port.received = [[3]] ∧ c.passedOf .swapNow = 1 ∧
      ∀ q ∈ s.ports, 1 ≤ q.decoded .swapRequest := by
  obtain ⟨hsafe, hhub, hmember⟩ := barrier_safe 2 5
  obtain ⟨s, hs, hshows⟩ := hhub [.arrive 0 [2], .arrive 1 [9, 2, 2], .syncSwap, .syncSwap]
  obtain ⟨c, hc, hshows'⟩ := hmember [.send .swapRequest, .arrive [3], .receiveSwap]
  have hrun : (Hub.start 2 5).actAll [.arrive 0 [2], .arrive 1 [9, 2, 2], .syncSwap, .syncSwap] =
      ([.swapRequest], ⟨List.replicate 2 ⟨[], ⟨[]⟩, false, [3]⟩, 5⟩) := by decide +kernel
  have hrun' : ((Member.start 5).actAll [.send .swapRequest, .arrive [3], .receiveSwap]).1 =
      [.swapNow] := by decide +kernel
  rw [hrun] at hshows
  rw [hrun'] at hshows'
  obtain ⟨d, hports, hreceived⟩ := List.map_eq_singleton_iff.1 hshows'.received
  have hd : d ∈ c.ports := by
    rw [hports]
    exact List.mem_cons_self
  have hlink : (⟨[], ⟨[]⟩, false, [3]⟩ : Link) ∈ s.ports.map Port.link := by
    rw [hshows.links]
    exact List.mem_cons_self
  obtain ⟨p, hp, hsent⟩ := List.mem_map.1 hlink
  have hprefix : d.received <+: p.link.sent := by
    rw [hsent, hreceived]
    exact List.prefix_refl [3]
  have hone : c.passedOf .swapNow = 1 := by
    rw [passedOf_eq_count, hshows'.passed]
    rfl
  refine ⟨s, c, hs, hc, hshows.passed, hshows.received, hshows.links, hshows'.received, hone, ?_⟩
  intro q hq
  rw [← hone]
  exact (hsafe s hs).clients c hc d hd p hp hprefix q hq

end Party
end Lockstep
