import Lockstep.Barrier.Network
import Lockstep.Proofs.Frame.Reader

/- One connection, as the barriers go on.

   1. `given agreed` is what each barrier should give when the queues of the frames are `agreed`, and
      `answerOf agreed` is the frame that the hub sends in it.
   2. All bytes on a connection that were not read, in either direction, are those of one frame at
      most: the request of a client that waits, or the answer to it. `Phase` says which, by where the
      client and the hub stand.
   3. A connection is `Orderly` when it is in a phase, its client was given what it should be, and no
      frame was passed over. Steps keep it orderly (`Orderly.step`), however they cut the bytes. -/
namespace Lockstep
open Barrier

/-! ## What should happen -/

namespace Barrier

/-- What a barrier should give. -/
def given (agreed : Nat → Queue) (barrier : Nat) : Option Queue :=
  if barrier % 2 = 0 then some (agreed (barrier / 2)) else none

/-- What the first barriers should give. -/
def outcomes (agreed : Nat → Queue) (barriers : Nat) : List Outcome :=
  (List.range barriers).map fun barrier => .ok (given agreed barrier)

/-- The answer that the hub should send. -/
def answerOf (agreed : Nat → Queue) (barrier : Nat) : Frame :=
  if barrier % 2 = 0 then .events (agreed (barrier / 2)).render else .swapNow

theorem outcomes_succ (agreed : Nat → Queue) (barriers : Nat) :
    outcomes agreed (barriers + 1) = outcomes agreed barriers ++ [.ok (given agreed barriers)] := by
  rw [outcomes, List.range_succ, List.map_append]
  rfl

theorem kind_request (queues : Nat → Queue) (barrier : Nat) :
    (request queues barrier).kind = requestKind barrier := by
  rw [request, requestKind]
  split <;> rfl

theorem kind_answerOf (agreed : Nat → Queue) (barrier : Nat) :
    (answerOf agreed barrier).kind = answerKind barrier := by
  rw [answerOf, answerKind]
  split <;> rfl

end Barrier

/-- The requests of a client can be sent, and its answers can be read. -/
structure Exchange (agreed queues : Nat → Queue) (last : Nat) : Prop where
  requests : ∀ barrier < last, ∃ bytes, (request queues barrier).encode = .ok bytes
  answers : ∀ barrier < last, outcomeOf (answerOf agreed barrier) = .ok (given agreed barrier)

/-! ## Bytes that were not read -/

namespace Link

/-- The bytes sent to this end that were not read, with those under way. -/
def unread (l : Link) (underway : List UInt8) : List UInt8 :=
  l.reader.held ++ (l.arrived ++ underway)

section
variable {l : Link} {underway : List UInt8} {want : Frame.Kind} {f : Frame}

@[simp] theorem unread_arrive (l : Link) (underway : List UInt8) (n : Nat) :
    (l.arrive (underway.take n)).unread (underway.drop n) = l.unread underway := by
  simp only [unread, arrive, List.append_assoc, List.take_append_drop]

@[simp] theorem unread_takeIn (l : Link) (underway : List UInt8) (n : Nat) :
    (l.takeIn n).unread underway = l.unread underway := by
  simp only [unread, takeIn, Reader.feed, List.append_assoc]
  rw [← List.append_assoc (l.arrived.take n), List.take_append_drop]

theorem unread_append (l : Link) (underway bytes : List UInt8) :
    l.unread (underway ++ bytes) = l.unread underway ++ bytes := by
  simp only [unread, List.append_assoc]

/-- Where everything was read there is nothing to find. -/
theorem look_of_unread_nil (h : l.unread underway = []) (want : Frame.Kind) :
    l.reader.nextOf want = (.ok none, l.reader) ∧ l.reader.passedBy want = [] := by
  have hheld : l.reader = ⟨[]⟩ := by rw [← (List.append_eq_nil_iff.1 h).1]
  rw [hheld]
  exact Reader.nextOf_nil want

/-- Where all that was not read is one frame, that frame is found once all of it was taken in. -/
theorem look_of_unread (h : f.encode = .ok (l.unread underway)) (hk : f.kind = want) :
    l.reader.passedBy want = [] ∧
      l.reader.nextOf want =
        if l.arrived ++ underway = [] then (.ok (some f), ⟨[]⟩) else (.ok none, l.reader) :=
  hk ▸ Reader.nextOf_cases h

end

end Link

namespace Conn

/-- The bytes from the client that the hub has not read. -/
def upward (c : Conn) : List UInt8 := c.near.unread c.up

/-- The bytes from the hub that the client has not read. -/
def downward (c : Conn) : List UInt8 := c.far.unread c.down

/-- Where a connection stands while the hub is in a barrier. -/
inductive Phase (agreed : Nat → Queue) (last round : Nat) (c : Conn) : Prop
  /-- The client did not ask yet. -/
  | idle (hr : c.round = round) (ha : c.asked = false) (hs : c.slot = none) (hu : c.upward = [])
    (hd : c.downward = [])
  /-- The request is on its way. -/
  | asking (hr : c.round = round) (hl : c.round < last) (ha : c.asked = true) (hs : c.slot = none)
    (hu : (request c.queues round).encode = .ok c.upward) (hd : c.downward = [])
  /-- The hub took the request. -/
  | heard (hr : c.round = round) (hl : c.round < last) (ha : c.asked = true)
    (hs : c.slot = some (request c.queues round)) (hu : c.upward = []) (hd : c.downward = [])
  /-- The hub is one barrier ahead, and the answer is on its way. -/
  | answered (hr : c.round + 1 = round) (hl : c.round < last) (ha : c.asked = true)
    (hs : c.slot = none) (hu : c.upward = []) (hd : (answerOf agreed c.round).encode = .ok c.downward)

structure Orderly (agreed : Nat → Queue) (last round : Nat) (c : Conn) : Prop where
  phase : c.Phase agreed last round
  results : c.results = outcomes agreed c.round
  dropped : c.dropped = []

section
variable {agreed : Nat → Queue} {last round : Nat} {c c' : Conn}

theorem orderly_start (agreed queues : Nat → Queue) (last : Nat) :
    (start queues).Orderly agreed last 0 :=
  ⟨.idle rfl rfl rfl rfl rfl, rfl, rfl⟩

/-! ## What the two ends find -/

/-- The hub finds nothing, or the request that it waits for. -/
theorem Phase.hub_look (h : c.Phase agreed last round) (hs : c.slot = none) :
    c.near.reader.passedBy (requestKind round) = [] ∧
      (c.near.reader.nextOf (requestKind round) = (.ok none, c.near.reader) ∨
        c.near.reader.nextOf (requestKind round) = (.ok (some (request c.queues round)), ⟨[]⟩) ∧
          c.near.arrived ++ c.up = [] ∧ c.round = round ∧ c.round < last ∧ c.asked = true ∧
          c.downward = []) := by
  have hnothing : c.upward = [] → _ := fun hu =>
    (Link.look_of_unread_nil hu (requestKind round)).symm
  cases h with
  | idle hr ha hs' hu hd => exact (hnothing hu).imp_right .inl
  | heard hr hl ha hs' hu hd =>
    rw [hs'] at hs
    cases hs
  | answered hr hl ha hs' hu hd => exact (hnothing hu).imp_right .inl
  | asking hr hl ha hs' hu hd =>
    obtain ⟨hpassed, hnext⟩ := Link.look_of_unread hu (kind_request c.queues round)
    refine ⟨hpassed, ?_⟩
    split at hnext
    · rename_i hall
      exact .inr ⟨hnext, hall, hr, hl, ha, hd⟩
    · exact .inl hnext

/-- A client that waits finds nothing, or its answer. -/
theorem Phase.client_look (h : c.Phase agreed last round) (ha : c.asked = true) :
    c.far.reader.passedBy (answerKind c.round) = [] ∧
      (c.far.reader.nextOf (answerKind c.round) = (.ok none, c.far.reader) ∨
        c.far.reader.nextOf (answerKind c.round) = (.ok (some (answerOf agreed c.round)), ⟨[]⟩) ∧
          c.far.arrived ++ c.down = [] ∧ c.round + 1 = round ∧ c.round < last ∧ c.slot = none ∧
          c.upward = []) := by
  have hnothing : c.downward = [] → _ := fun hd =>
    (Link.look_of_unread_nil hd (answerKind c.round)).symm
  cases h with
  | idle hr ha' hs hu hd =>
    rw [ha'] at ha
    cases ha
  | asking hr hl ha' hs hu hd => exact (hnothing hd).imp_right .inl
  | heard hr hl ha' hs hu hd => exact (hnothing hd).imp_right .inl
  | answered hr hl ha' hs hu hd =>
    obtain ⟨hpassed, hnext⟩ := Link.look_of_unread hd (kind_answerOf agreed c.round)
    refine ⟨hpassed, ?_⟩
    split at hnext
    · rename_i hall
      exact .inr ⟨hnext, hall, hr, hl, hs, hu⟩
    · exact .inl hnext

/-! ## Steps -/

/-- A connection on which bytes only move on stands where it stood. -/
theorem Orderly.moved (h : c.Orderly agreed last round) (hq : c'.queues = c.queues)
    (ha : c'.asked = c.asked) (hr : c'.results = c.results) (hs : c'.slot = c.slot)
    (hdropped : c'.dropped = c.dropped) (hu : c'.upward = c.upward)
    (hd : c'.downward = c.downward) : c'.Orderly agreed last round := by
  have hround : c'.round = c.round := congrArg List.length hr
  have hphase : c'.Phase agreed last round := by
    cases h.phase with
    | idle hr' ha' hs' hu' hd' =>
      exact .idle (hround.trans hr') (ha.trans ha') (hs.trans hs') (hu.trans hu') (hd.trans hd')
    | asking hr' hl' ha' hs' hu' hd' =>
      exact .asking (hround.trans hr') (hround ▸ hl') (ha.trans ha') (hs.trans hs')
        (by rw [hq, hu, hu']) (hd.trans hd')
    | heard hr' hl' ha' hs' hu' hd' =>
      exact .heard (hround.trans hr') (hround ▸ hl') (ha.trans ha') (by rw [hq, hs, hs'])
        (hu.trans hu') (hd.trans hd')
    | answered hr' hl' ha' hs' hu' hd' =>
      exact .answered (by rw [hround, hr']) (hround ▸ hl') (ha.trans ha') (hs.trans hs')
        (hu.trans hu') (by rw [hround, hd, hd'])
  exact ⟨hphase, by rw [hr, hround, h.results], hdropped.trans h.dropped⟩

/-- A client that did not ask sends its request. -/
theorem Orderly.ask (h : c.Orderly agreed last round) (hx : Exchange agreed c.queues last)
    (hl : c.round < last) (ha : c.asked = false) : c.ask.Orderly agreed last round := by
  obtain ⟨bytes, hbytes⟩ := hx.requests c.round hl
  cases h.phase with
  | idle hr _ hs hu hd =>
    have hask : c.ask = { c with far := c.far.send bytes, up := c.up ++ bytes, asked := true } := by
      simp only [Conn.ask, hbytes]
    have hsent : c.ask.upward = bytes := by
      rw [hask]
      show c.near.unread (c.up ++ bytes) = bytes
      rw [Link.unread_append, show c.near.unread c.up = [] from hu, List.nil_append]
    rw [hr] at hbytes
    rw [← hsent, hask] at hbytes
    rw [hask]
    exact ⟨.asking hr hl rfl hs hbytes hd, h.results, h.dropped⟩
  | asking _ _ ha' | heard _ _ ha' | answered _ _ ha' =>
    rw [ha'] at ha
    cases ha

/-- Whatever a connection does, it stays orderly. -/
theorem Orderly.step (h : c.Orderly agreed last round) (hx : Exchange agreed c.queues last)
    (hs : c.Step last round c') : c'.Orderly agreed last round := by
  -- Only `ask`, `hear` and `read` lead to another phase. What a reader finds is settled by the phase, so
  -- `miss`, `skip` and `fail` do not come about.
  cases hs with
  | ask hl ha => exact h.ask hx hl ha
  | carryUp => exact h.moved rfl rfl rfl rfl rfl (Link.unread_arrive ..) rfl
  | carryDown => exact h.moved rfl rfl rfl rfl rfl rfl (Link.unread_arrive ..)
  | takeUp => exact h.moved rfl rfl rfl rfl rfl (Link.unread_takeIn ..) rfl
  | takeDown => exact h.moved rfl rfl rfl rfl rfl rfl (Link.unread_takeIn ..)
  | hear hr hslot hnext =>
    obtain ⟨hpassed, hlook⟩ := h.phase.hub_look hslot
    rcases hlook with hlook | ⟨hlook, hall, hround, hl, ha, hd⟩
    · rw [hlook] at hnext
      cases hnext
    · rw [hlook] at hnext
      cases hnext
      refine ⟨.heard hround hl ha rfl hall hd, h.results, ?_⟩
      show c.dropped ++ _ = []
      rw [hpassed, h.dropped]
      rfl
  | miss hr hslot hnext hl =>
    obtain ⟨-, hlook⟩ := h.phase.hub_look hslot
    rcases hlook with hlook | ⟨hlook, -⟩
    · rw [hlook] at hnext
      cases hnext
      exact absurd hl (Nat.lt_irrefl _)
    · rw [hlook] at hnext
      cases hnext
  | read hr ha hnext =>
    obtain ⟨hpassed, hlook⟩ := h.phase.client_look ha
    rcases hlook with hlook | ⟨hlook, hall, hround, hl, hslot, hu⟩
    · rw [hlook] at hnext
      cases hnext
    · rw [hlook] at hnext
      cases hnext
      have hsettle : ((c.read (answerKind c.round) ⟨[]⟩).settle
          (outcomeOf (answerOf agreed c.round))).round = c.round + 1 := round_settle ..
      refine ⟨.idle (hsettle.trans hround) rfl hslot hu hall, ?_, ?_⟩
      · rw [hsettle, outcomes_succ, ← h.results, ← hx.answers c.round hl]
        rfl
      · show c.dropped ++ _ = []
        rw [hpassed, h.dropped]
        rfl
  | skip ha hnext hl =>
    obtain ⟨-, hlook⟩ := h.phase.client_look ha
    rcases hlook with hlook | ⟨hlook, -⟩
    · rw [hlook] at hnext
      cases hnext
      exact absurd hl (Nat.lt_irrefl _)
    · rw [hlook] at hnext
      cases hnext
  | fail hr ha hnext =>
    obtain ⟨-, hlook⟩ := h.phase.client_look ha
    rcases hlook with hlook | ⟨hlook, -⟩ <;>
    · rw [hlook] at hnext
      cases hnext

end

end Conn
end Lockstep
