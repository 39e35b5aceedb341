import Lockstep.Proofs.Queue.Merge
import Lockstep.Proofs.Registry.RoundTrip

/- The hub's answer to queues that programs push.

   1. A `Pushed` queue holds snapshots of reachable registries that can stand in markup; it gathers its
      own events, and it is read back from its text.
   2. `brought` lists what the hub's node and its clients bring to a barrier, the hub first and the
      clients in order. Merging the clients' frames into the hub's queue gathers all of that
      (`exists_mergeFrames`).
   3. So when the one queue that gathers it fits in a frame, that queue is what the hub answers with,
      and what every client reads in the answer (`exists_reply`). -/
namespace Lockstep
open Lockstep.Frame

theorem length_le_utf8ByteSize (chars : List Char) :
    chars.length ≤ (String.ofList chars).utf8ByteSize := by
  show chars.length ≤ (String.ofList chars).toByteArray.size
  rw [String.toByteArray_ofList]
  induction chars with
  | nil => exact Nat.zero_le _
  | cons c rest ih =>
    have hone : [c].utf8Encode.size = c.utf8Size := by
      rw [List.utf8Encode_singleton, List.size_toByteArray, String.length_utf8EncodeChar]
    have hpos := c.utf8Size_pos
    rw [List.utf8Encode_cons, ByteArray.size_append, hone, List.length_cons]
    omega

theorem Frame.exists_encode_events {text : String} (h : text.utf8ByteSize ≤ maxPayload) :
    ∃ bytes, (Frame.events text).encode = .ok bytes :=
  ⟨_, if_neg (Nat.not_lt.2 h)⟩

namespace Queue

/-- A queue that was built by pushing snapshots. -/
inductive Pushed : Queue → Prop
  | empty : Pushed .empty
  | push {q q' : Queue} {r : Registry} {m : UInt64} {t : Stamp} (h : Pushed q)
    (hr : Registry.Reachable r) (he : r.Enclosable) (hp : q.pushAt m (.snapshot r) = .ok (t, q')) :
    Pushed q'

theorem Pushed.gathers {q : Queue} (h : Pushed q) : Gathers q.arrivals q := by
  have : ∃ arrived, Gathers arrived q := by
    induction h with
    | empty => exact ⟨[], gathers_empty⟩
    | push _ _ _ hp ih =>
      obtain ⟨arrived, ih⟩ := ih
      exact ⟨_, ih.pushAt hp⟩
  obtain ⟨arrived, h⟩ := this
  exact h.arrivals

theorem Pushed.readable {q : Queue} (h : Pushed q) : q.Readable := by
  induction h with
  | empty => exact nofun
  | push _ hr he hp ih =>
    intro item hitem
    have htidy := (Registry.tidy_of_reachable hr).forest
    rcases List.mem_cons.1 ((perm_of_placeIn (exists_placeIn_of_place hp)).subset hitem) with rfl | hitem
    · rw [Payload.text, Registry.renderRoots, String.toList_ofList]
      exact Registry.isContent_chars htidy (he.placed htidy)
    · exact ih item hitem

theorem size_le_render (q : Queue) : q.size ≤ q.render.utf8ByteSize := by
  have hitems : q.items.length ≤ (q.items.flatMap itemChars).length := by
    rw [List.length_flatMap]
    induction q.items with
    | nil => exact Nat.zero_le _
    | cons item rest ih =>
      have : 0 < (itemChars item).length := Nat.succ_pos _
      rw [List.map_cons, List.sum_cons, List.length_cons]
      omega
  have hchars : q.items.length ≤ q.chars.length := by
    rw [chars, List.length_append, List.length_append]
    omega
  exact Nat.le_trans hchars (length_le_utf8ByteSize q.chars)

/-- A queue of readable payloads that fits in a frame is read back from its text. -/
theorem parse_render_of_fits {q : Queue} (h : q.Readable) (hs : q.render.utf8ByteSize ≤ maxPayload) :
    parse q.render = .ok q.written :=
  parse_render h (Nat.lt_of_le_of_lt (Nat.le_trans q.size_le_render hs) (by decide))

/-! ## Answering -/

/-- What a hub's node and its clients bring to a barrier, as the texts that the others see. -/
def brought (own : Queue) (others : List Queue) : List Arrival :=
  (own.arrivals ++ others.flatMap arrivals).map Arrival.written

theorem exists_mergeFrames {q : Queue} {arrived : List Arrival} {others : List Queue}
    (h : Gathers arrived q) (ho : ∀ other ∈ others, parse other.render = .ok other.written)
    (hc : ∀ m, countAt m (arrived ++ others.flatMap fun other => other.written.arrivals) ≤ 2 ^ 32) :
    ∃ merged, Hub.mergeFrames q (others.map fun other => .events other.render) = .ok merged ∧
      Gathers (arrived ++ others.flatMap fun other => other.written.arrivals) merged := by
  induction others generalizing arrived q with
  | nil => exact ⟨q, rfl, by rwa [List.flatMap_nil, List.append_nil]⟩
  | cons other others ih =>
    have hsplit : arrived ++ (other :: others).flatMap (fun other => other.written.arrivals) =
        (arrived ++ other.written.arrivals) ++ others.flatMap fun other => other.written.arrivals := by
      rw [List.flatMap_cons, List.append_assoc]
    rw [hsplit] at hc ⊢
    have hone : ∀ m, countAt m (arrived ++ other.written.arrivals) ≤ 2 ^ 32 := by
      intro m
      have := hc m
      rw [countAt_append] at this
      omega
    obtain ⟨q', hmerge, hq'⟩ := h.exists_merge hone
    obtain ⟨merged, hframes, hmerged⟩ :=
      ih hq' (fun other hother => ho other (List.mem_cons_of_mem _ hother)) hc
    refine ⟨merged, ?_, hmerged⟩
    rw [List.map_cons, Hub.mergeFrames, mergeText, ho other List.mem_cons_self]
    simp only [hmerge, hframes]

/-- The hub answers with the queue that gathers what it and its clients bring, and every client reads
    that queue in the answer. -/
theorem exists_reply {own agreed : Queue} {others : List Queue} (hown : own.Pushed)
    (ho : ∀ other ∈ others, other.Pushed ∧ other.render.utf8ByteSize ≤ maxPayload)
    (ha : Gathers (brought own others) agreed) (hs : agreed.render.utf8ByteSize ≤ maxPayload) :
    ∃ bytes, Hub.reply own (others.map fun other => .events other.render) = .ok (agreed, bytes) ∧
      (Frame.events agreed.render).encode = .ok bytes ∧ parse agreed.render = .ok agreed := by
  have hread : ∀ other ∈ others, parse other.render = .ok other.written := fun other hother =>
    parse_render_of_fits (ho other hother).1.readable (ho other hother).2
  have hbrought : (own.arrivals ++ others.flatMap fun other => other.written.arrivals).map
      Arrival.written = brought own others := by
    rw [brought, List.map_append, List.map_append, List.map_flatMap, List.map_flatMap]
    simp only [arrivals_written, map_written_map_written]
  have hcount : ∀ m, countAt m (own.arrivals ++ others.flatMap fun other => other.written.arrivals) ≤
      2 ^ 32 := by
    intro m
    rw [← countAt_map_written, hbrought]
    exact ha.countAt_le m
  obtain ⟨merged, hmerge, hmerged⟩ := exists_mergeFrames hown.gathers hread hcount
  -- What the hub merged is the agreed queue, but for the payloads that are not texts yet.
  have hwritten : merged.written = agreed := by
    have := hmerged.written
    rw [hbrought] at this
    exact this.unique ha
  have hrender : merged.render = agreed.render := by rw [← render_written, hwritten]
  have hparse : parse agreed.render = .ok agreed := by
    have := parse_render_of_fits (readable_mergeFrames hown.readable hmerge) (by rwa [hrender])
    rwa [hrender, hwritten] at this
  obtain ⟨bytes, hencode⟩ := Frame.exists_encode_events hs
  refine ⟨bytes, ?_, hencode, hparse⟩
  simp only [Hub.reply, hmerge, hrender, hparse, hencode]

end Queue

/-- An answer carries the merged queue, and its node goes on with what is read in it. -/
theorem Hub.exists_of_reply {q result : Queue} {frames : List Frame} {bytes : List UInt8}
    (h : reply q frames = .ok (result, bytes)) :
    ∃ merged, mergeFrames q frames = .ok merged ∧ Queue.parse merged.render = .ok result ∧
      (Frame.events merged.render).encode = .ok bytes := by
  rw [reply] at h
  cases hmerge : mergeFrames q frames with
  | error e =>
    rw [hmerge] at h
    cases h
  | ok merged =>
    simp only [hmerge] at h
    cases hparse : Queue.parse merged.render with
    | error e =>
      rw [hparse] at h
      cases h
    | ok read =>
      simp only [hparse] at h
      cases hencode : (Frame.events merged.render).encode with
      | error e =>
        rw [hencode] at h
        cases h
      | ok bytes' =>
        rw [hencode] at h
        cases h
        exact ⟨merged, rfl, hparse, hencode⟩

namespace Barrier

/-- What all nodes bring to the events barrier of a frame. -/
def brought (own : Nat → Queue) (clients : List (Nat → Queue)) (k : Nat) : List Queue.Arrival :=
  Queue.brought (own k) (clients.map fun queues => queues k)

/-- Queues that a cluster can agree on: programs pushed them, and those that are sent fit in a frame:
    those of the clients, and in each frame the one that gathers what all nodes bring. (There is such a
    queue unless a microsecond has more events than there are numbers for them, see
    `Queue.exists_gathers`, and then no text is short enough.) -/
structure Fits (own : Nat → Queue) (clients : List (Nat → Queue)) (frames : Nat) : Prop where
  ownPushed : ∀ k < frames, (own k).Pushed
  pushed : ∀ queues ∈ clients, ∀ k < frames, (queues k).Pushed
  requests : ∀ queues ∈ clients, ∀ k < frames,
    (queues k).render.utf8ByteSize ≤ maxPayload
  answers : ∀ k < frames, ∃ q, Queue.Gathers (brought own clients k) q ∧
    q.render.utf8ByteSize ≤ maxPayload

/-- The hub's reply in a frame. -/
theorem Fits.reply {own agreed : Nat → Queue} {clients : List (Nat → Queue)} {frames k : Nat}
    (h : Fits own clients frames) (hk : k < frames)
    (ha : Queue.Gathers (brought own clients k) (agreed k))
    (hs : (agreed k).render.utf8ByteSize ≤ maxPayload) :
    ∃ bytes, Hub.reply (own k) (clients.map fun queues => .events (queues k).render) =
        .ok (agreed k, bytes) ∧ (Frame.events (agreed k).render).encode = .ok bytes ∧
      Queue.parse (agreed k).render = .ok (agreed k) := by
  have hothers : ∀ other ∈ clients.map fun queues => queues k,
      other.Pushed ∧ other.render.utf8ByteSize ≤ maxPayload := by
    intro other hother
    obtain ⟨queues, hqueues, rfl⟩ := List.mem_map.1 hother
    exact ⟨h.pushed queues hqueues k hk, h.requests queues hqueues k hk⟩
  have := Queue.exists_reply (h.ownPushed k hk) hothers ha hs
  rwa [List.map_map] at this

end Barrier
end Lockstep
