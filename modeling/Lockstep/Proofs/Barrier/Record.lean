import Lockstep.Barrier.Party
import Lockstep.Proofs.Barrier.Calls

/- What a party's ports keep of a run.

   1. A port `Records` a run: its readings are those of the bytes that it received, each once and in
      order; a barrier took no two of them, and every barrier that was passed took one of its kind. A
      hub's port is `Answered`: what was sent on it are frames, no more than there were barriers passed.
   2. One step of one port keeps the record (`Port.Records.step`), and so does a barrier that begins,
      ends or is passed. So every state of a run has it (`Party.Records.reach`). -/
namespace Lockstep
open Lockstep.Frame

namespace Port

structure Records (want : Option Frame.Kind) (ended : Nat) (passed : List (Nat × Frame.Kind))
    (p : Port) : Prop where
  /-- All that was read, and what was not read, is all that was received. -/
  reads : Reads p.received (p.readings.map Reading.result) (p.link.unread [])
  /-- No barrier took two readings. -/
  rising : (p.takings.map Prod.fst).Pairwise (· < ·)
  /-- Only the barrier under way can have taken the frame in the slot. -/
  lt_ended : ∀ b ∈ p.takings, b.1 < ended ∨ b.1 = ended ∧ p.slot ≠ none
  slot : ∀ f, p.slot = some f → want = some f.kind ∧
    ∃ earlier, p.takings = earlier ++ [(ended, f.kind)] ∧ passed.Sublist earlier
  /-- Every barrier that was passed took a reading of the kind that it waited for. -/
  passed : passed.Sublist p.takings

section
variable {role : Role} {want : Option Frame.Kind} {ended : Nat} {passed : List (Nat × Frame.Kind)}
  {k : Frame.Kind} {p p' : Port}

theorem records_fresh : fresh.Records none 0 [] where
  reads := .refl []
  rising := .nil
  lt_ended := nofun
  slot := nofun
  passed := .slnil

/-- More bytes are left to be read. -/
theorem Records.arrive (h : p.Records want ended passed) (bytes : List UInt8) :
    (p.arrive bytes).Records want ended passed where
  reads := by
    have hunread : (p.link.arrive bytes).unread [] = p.link.unread [] ++ bytes := by
      have := Link.unread_arrive p.link bytes bytes.length
      rw [List.take_length, List.drop_length] at this
      rw [this, ← Link.unread_append, List.nil_append]
    show Reads (p.received ++ bytes) _ ((p.link.arrive bytes).unread [])
    rw [hunread]
    exact h.reads.append bytes
  rising := h.rising
  lt_ended := h.lt_ended
  slot := h.slot
  passed := h.passed

theorem Records.takeIn (h : p.Records want ended passed) (n : Nat) :
    (p.takeIn n).Records want ended passed where
  reads := by
    show Reads p.received _ ((p.link.takeIn n).unread [])
    rw [Link.unread_takeIn]
    exact h.reads
  rising := h.rising
  lt_ended := h.lt_ended
  slot := h.slot
  passed := h.passed

theorem Records.send (h : p.Records want ended passed) (bytes : List UInt8) :
    (p.send bytes).Records want ended passed :=
  ⟨h.reads, h.rising, h.lt_ended, h.slot, h.passed⟩

/-- What the reader gives is read from the bytes that were left. -/
theorem Records.reads_next (h : p.Records want ended passed)
    {given : Option (Except Frame.Error Frame)} {reader : Reader}
    (hn : p.link.reader.next = (given, reader)) :
    Reads p.received (p.readings.map Reading.result ++ given.toList)
      (Link.unread { p.link with reader } []) := by
  have hread := (Reader.reads_next p.link.reader).1
  rw [hn] at hread
  exact h.reads.trans (hread.append _)

theorem Records.idle (h : p.Records want ended passed) {reader : Reader}
    (hn : p.link.reader.next = (none, reader)) :
    Records want ended passed { p with link := { p.link with reader } } where
  reads := by
    have := h.reads_next hn
    rwa [Option.toList_none, List.append_nil] at this
  rising := h.rising
  lt_ended := h.lt_ended
  slot := h.slot
  passed := h.passed

theorem note_of_taken {f : Frame} (reader : Reader) (p : Port) :
    p.note f.kind ended (.ok f) reader =
      { p with
        link := { p.link with reader }
        readings := p.readings ++ [⟨.ok f, some ended⟩]
        slot := some f } := by
  have hgave : f.kind.gaveBy (.ok f) = true := decide_eq_true rfl
  rw [note, if_pos hgave, if_pos hgave]
  rfl

theorem note_of_passed_over {result : Except Frame.Error Frame} (h : k.gaveBy result = false)
    (reader : Reader) (p : Port) :
    p.note k ended result reader =
      { p with link := { p.link with reader }, readings := p.readings ++ [⟨result, none⟩] } := by
  rw [note, h]
  rfl

/-- A result that no barrier takes. -/
theorem Records.passed_over (h : p.Records want ended passed) {result : Except Frame.Error Frame}
    {reader : Reader} (hn : p.link.reader.next = (some result, reader)) :
    Records want ended passed
      { p with link := { p.link with reader }, readings := p.readings ++ [⟨result, none⟩] } := by
  have htakings : takings
      { p with link := { p.link with reader }, readings := p.readings ++ [⟨result, none⟩] } =
        p.takings := by
    have hnone : [(⟨result, none⟩ : Reading)].filterMap Reading.taking? = [] := by
      cases result <;> rfl
    rw [takings, List.filterMap_append, hnone, List.append_nil]
    rfl
  refine ⟨?_, htakings ▸ h.rising, ?_, ?_, htakings ▸ h.passed⟩
  · rw [List.map_append]
    exact h.reads_next hn
  · rw [htakings]
    exact h.lt_ended
  · rw [htakings]
    exact h.slot

/-- A frame that the barrier under way takes. It took none before. -/
theorem Records.taken {f : Frame} (h : p.Records (some f.kind) ended passed) (hs : p.slot = none)
    {reader : Reader} (hn : p.link.reader.next = (some (.ok f), reader)) :
    Records (some f.kind) ended passed
      { p with
        link := { p.link with reader }
        readings := p.readings ++ [⟨.ok f, some ended⟩]
        slot := some f } := by
  have htakings : takings
      { p with
        link := { p.link with reader }
        readings := p.readings ++ [⟨.ok f, some ended⟩]
        slot := some f } = p.takings ++ [(ended, f.kind)] := List.filterMap_append
  have hbefore : ∀ b ∈ p.takings, b.1 < ended := by
    intro b hb
    rcases h.lt_ended b hb with hlt | ⟨-, hne⟩
    · exact hlt
    · exact absurd hs hne
  refine ⟨?_, ?_, fun b hb => ?_, fun f' hf' => ?_, ?_⟩
  · rw [List.map_append]
    exact h.reads_next hn
  · rw [htakings, List.map_append, List.pairwise_append]
    refine ⟨h.rising, List.pairwise_singleton .., ?_⟩
    intro i hi j hj
    obtain ⟨b, hb, rfl⟩ := List.mem_map.1 hi
    rw [List.mem_singleton.1 hj]
    exact hbefore b hb
  · rw [htakings] at hb
    rcases List.mem_append.1 hb with hb | hb
    · exact .inl (hbefore b hb)
    · rw [List.mem_singleton.1 hb]
      exact .inr ⟨rfl, nofun⟩
  · cases hf'
    exact ⟨rfl, p.takings, htakings, h.passed⟩
  · rw [htakings]
    exact h.passed.trans (List.sublist_append_left ..)

/-- A step of a port keeps the record. -/
theorem Records.step (h : p.Records want ended passed) (hs : p.Step role want ended p') :
    p'.Records want ended passed := by
  cases hs with
  | arrive bytes => exact h.arrive bytes
  | finish => exact ⟨h.reads, h.rising, h.lt_ended, h.slot, h.passed⟩
  | takeIn n => exact h.takeIn n
  | request _ _ => exact h.send _
  | idle hn => exact h.idle hn
  | @hear k f reader hw hslot hn =>
    subst hw
    by_cases hk : f.kind = k
    · subst hk
      rw [note_of_taken]
      exact h.taken hslot hn
    · have hgave : k.gaveBy (.ok f) = false := decide_eq_false hk
      rw [note_of_passed_over hgave]
      exact h.passed_over hn

/-! ## Where barriers begin and end -/

/-- The slots are empty where a barrier begins. -/
theorem Records.enter (h : p.Records none ended passed) (k : Frame.Kind) :
    p.Records (some k) ended passed where
  reads := h.reads
  rising := h.rising
  lt_ended := h.lt_ended
  slot := fun f hf => absurd (h.slot f hf).1 nofun
  passed := h.passed

theorem Records.clear (h : p.Records want ended passed) :
    p.clear.Records none (ended + 1) passed where
  reads := h.reads
  rising := h.rising
  lt_ended := fun b hb => by
    rcases h.lt_ended b hb with hlt | ⟨heq, -⟩
    · exact .inl (Nat.lt_succ_of_lt hlt)
    · exact .inl (Nat.lt_succ_of_le (Nat.le_of_eq heq))
  slot := nofun
  passed := h.passed

/-- The barrier under way is passed with the frame in the slot, and ends. -/
theorem Records.pass (h : p.Records (some k) ended passed) {f : Frame} (hs : p.slot = some f) :
    p.clear.Records none (ended + 1) (passed ++ [(ended, k)]) where
  reads := h.reads
  rising := h.rising
  lt_ended := h.clear.lt_ended
  slot := nofun
  passed := by
    obtain ⟨hkind, earlier, htakings, hpassed⟩ := h.slot f hs
    rw [Option.some.inj hkind]
    exact htakings ▸ hpassed.append (.refl _)

end

end Port

/-! ## What a hub sends -/

/-- The kind of frame with which a hub answers. -/
def Frame.Kind.answer : Frame.Kind → Frame.Kind
  | .events => .events
  | .swapRequest | .swapNow => .swapNow

/-- A hub passes a barrier with one frame. -/
theorem Role.Answers.exists_encode {k : Frame.Kind} {frames : List Frame} {bytes : List UInt8}
    (h : Role.hub.Answers k frames bytes) :
    ∃ f : Frame, f.kind = k.answer ∧ f.encode = .ok bytes := by
  cases k with
  | swapRequest | swapNow =>
    cases h
    exact ⟨.swapNow, rfl, rfl⟩
  | events =>
    obtain ⟨q, result, hreply⟩ := h
    obtain ⟨merged, -, -, hencode⟩ := Hub.exists_of_reply hreply
    exact ⟨_, rfl, hencode⟩

namespace Port

/-- All that was sent are frames, which answer barriers that were passed. -/
def Answered (passed : List (Nat × Frame.Kind)) (p : Port) : Prop :=
  ∃ frames : List Frame, Reads p.link.sent (frames.map .ok) [] ∧
    (frames.map Frame.kind).Sublist (passed.map fun b => b.2.answer)

section
variable {want : Option Frame.Kind} {ended : Nat} {passed : List (Nat × Frame.Kind)} {p p' : Port}

/-- A hub sends nothing before it passes a barrier. -/
theorem Answered.step (h : p.Answered passed) (hs : p.Step .hub want ended p') :
    p'.Answered passed := by
  cases hs with
  | request hr => cases hr
  | arrive | finish | takeIn | idle | hear => exact h

theorem Answered.unreached (h : p.Answered passed) (b : Nat × Frame.Kind) :
    p.Answered (passed ++ [b]) := by
  obtain ⟨frames, hreads, hsub⟩ := h
  refine ⟨frames, hreads, hsub.trans ?_⟩
  rw [List.map_append]
  exact List.sublist_append_left ..

theorem Answered.reached (h : p.Answered passed) {b : Nat × Frame.Kind} {f : Frame}
    {bytes : List UInt8} (hk : f.kind = b.2.answer) (he : f.encode = .ok bytes) :
    (p.send bytes).Answered (passed ++ [b]) := by
  obtain ⟨frames, hreads, hsub⟩ := h
  obtain ⟨piece, hframed, rfl, hgives⟩ := Reader.exists_piece_of_encode he
  refine ⟨frames ++ [f], ?_, ?_⟩
  · have hframe := Reads.of_piece hframed.sound []
    rw [hgives, List.append_nil] at hframe
    rw [List.map_append]
    exact (hreads.append _).trans hframe
  · rw [List.map_append, List.map_append]
    have hlast : [f].map Frame.kind = [b].map fun b => b.2.answer := congrArg ([·]) hk
    exact hsub.append (hlast ▸ .refl _)

end
end Port

/-! ## Parties -/

namespace Party

structure Records (role : Role) (s : Party) : Prop where
  want : ∀ k, s.want = some k → role.waits k
  /-- Barriers are passed in order, and no barrier twice. -/
  rising : (s.passed.map Prod.fst).Pairwise (· < ·)
  passed : ∀ b ∈ s.passed, b.1 < s.ended ∧ role.waits b.2
  ports : ∀ p ∈ s.ports, p.Records s.want s.ended s.passed
  answered : role = .hub → ∀ p ∈ s.ports, p.Answered s.passed

variable {role : Role} {s s' : Party}

theorem records_start (role : Role) (peers : Nat) : (start peers).Records role where
  want := nofun
  rising := .nil
  passed := nofun
  ports := fun p hp => by
    rw [List.eq_of_mem_replicate hp]
    exact Port.records_fresh
  answered := fun _ p hp => by
    rw [List.eq_of_mem_replicate hp]
    exact ⟨[], .refl [], .slnil⟩

theorem Records.leave (h : s.Records role) : s.leave.Records role where
  want := nofun
  rising := h.rising
  passed := fun b hb => ⟨Nat.lt_succ_of_lt (h.passed b hb).1, (h.passed b hb).2⟩
  ports := fun p hp => by
    obtain ⟨q, hq, rfl⟩ := List.mem_map.1 hp
    exact (h.ports q hq).clear
  answered := fun hr p hp => by
    obtain ⟨q, hq, rfl⟩ := List.mem_map.1 hp
    exact h.answered hr q hq

/-- One port of a party goes on. -/
theorem Records.port {before after : List Port} {p p' : Port} (h : s.Records role)
    (hp : s.ports = before ++ p :: after)
    (hr : p.Records s.want s.ended s.passed → p'.Records s.want s.ended s.passed)
    (ha : role = .hub → p.Answered s.passed → p'.Answered s.passed) :
    ({ s with ports := before ++ p' :: after } : Party).Records role := by
  have hmem : p ∈ s.ports := by
    rw [hp]
    exact List.mem_append_right _ List.mem_cons_self
  have hother : ∀ q ∈ before ++ p' :: after, q ∈ s.ports ∨ q = p' := by
    intro q hq
    rcases List.mem_append.1 hq with hq | hq
    · exact .inl (hp ▸ List.mem_append_left _ hq)
    · rcases List.mem_cons.1 hq with rfl | hq
      · exact .inr rfl
      · exact .inl (hp ▸ List.mem_append_right _ (List.mem_cons_of_mem p hq))
  refine ⟨h.want, h.rising, h.passed, fun q hq => ?_, fun hrole q hq => ?_⟩
  · rcases hother q hq with hq | rfl
    · exact h.ports q hq
    · exact hr (h.ports p hmem)
  · rcases hother q hq with hq | rfl
    · exact h.answered hrole q hq
    · exact ha hrole (h.answered hrole p hmem)

/-- A barrier is passed: there is a frame in every slot. -/
theorem Records.pass {k : Frame.Kind} {frames : List Frame} {bytes : List UInt8}
    (h : s.Records role) (reached : Nat) (hw : s.want = some k)
    (hc : Hub.complete (s.ports.map Port.slot) = some frames) (ha : role.Answers k frames bytes) :
    (s.pass k bytes reached).Records role := by
  have hslots := Hub.complete_eq_some hc
  have hslot : ∀ p ∈ s.ports, ∃ f, p.slot = some f := by
    intro p hp
    have hmem : p.slot ∈ frames.map some := hslots ▸ List.mem_map_of_mem hp
    obtain ⟨f, -, hf⟩ := List.mem_map.1 hmem
    exact ⟨f, hf.symm⟩
  have hports : ∀ p' ∈ (s.pass k bytes reached).ports, ∃ p ∈ s.ports,
      p' = (p.send bytes).clear ∨ p' = p.clear := by
    intro p' hp'
    rcases List.mem_append.1 hp' with hp' | hp'
    · obtain ⟨p, hp, rfl⟩ := List.mem_map.1 hp'
      exact ⟨p, List.mem_of_mem_take hp, .inl rfl⟩
    · obtain ⟨p, hp, rfl⟩ := List.mem_map.1 hp'
      exact ⟨p, List.mem_of_mem_drop hp, .inr rfl⟩
  refine ⟨nofun, ?_, ?_, ?_, ?_⟩
  · show (List.map Prod.fst (s.passed ++ [(s.ended, k)])).Pairwise _
    rw [List.map_append, List.pairwise_append]
    refine ⟨h.rising, List.pairwise_singleton .., ?_⟩
    intro i hi j hj
    obtain ⟨b, hb, rfl⟩ := List.mem_map.1 hi
    rw [List.mem_singleton.1 hj]
    exact (h.passed b hb).1
  · intro b hb
    rcases List.mem_append.1 hb with hb | hb
    · exact ⟨Nat.lt_succ_of_lt (h.passed b hb).1, (h.passed b hb).2⟩
    · rw [List.mem_singleton.1 hb]
      exact ⟨Nat.lt_succ_self _, h.want k hw⟩
  · intro p' hp'
    obtain ⟨p, hp, hp'⟩ := hports p' hp'
    obtain ⟨f, hf⟩ := hslot p hp
    have hrecords := hw ▸ h.ports p hp
    rcases hp' with rfl | rfl
    · exact (hrecords.send bytes).pass hf
    · exact hrecords.pass hf
  · intro hrole p' hp'
    subst hrole
    obtain ⟨p, hp, hp'⟩ := hports p' hp'
    have hanswered := h.answered rfl p hp
    obtain ⟨f, hkind, hencode⟩ := ha.exists_encode
    rcases hp' with rfl | rfl
    · exact hanswered.reached (b := (s.ended, k)) hkind hencode
    · exact hanswered.unreached _

theorem Records.step (h : s.Records role) (hs : s.Step role s') : s'.Records role := by
  cases hs with
  | port hp hs =>
    exact h.port hp (fun hr => hr.step hs) fun hrole ha => by
      subst hrole
      exact ha.step hs
  | enter hw hk =>
    refine ⟨fun k' hk' => Option.some.inj hk' ▸ hk, h.rising, h.passed, fun p hp => ?_, h.answered⟩
    have := h.ports p hp
    rw [hw] at this
    exact this.enter _
  | refuse hw hp hslot hn =>
    rw [Port.note_of_passed_over rfl]
    exact (h.port hp (fun hr => hr.passed_over hn) fun _ ha => ha).leave
  | leave hw => exact h.leave
  | pass reached hw hc ha => exact h.pass reached hw hc ha

theorem Records.reach (h : s.Records role) (hs : s.Reach role s') : s'.Records role := by
  induction hs with
  | refl => exact h
  | step _ hs ih => exact ih.step hs

end Party
end Lockstep
