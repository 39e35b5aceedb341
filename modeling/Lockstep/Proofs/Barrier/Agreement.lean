import Lockstep.Proofs.Barrier.Calls
import Lockstep.Proofs.Barrier.Termination

/- The nodes of a cluster agree.

   1. `Conducts` says of the queues of a cluster that in every barrier the requests can be sent, the
      hub answers with what is agreed, and the clients can read it.
   2. A net is `Orderly` when every connection is, for the barrier that the hub is in, and the hub was
      given what it should be. Steps keep it orderly (`Orderly.step`, `Orderly.reach`).
   3. A connection of an orderly net has a step, or waits for the other clients (`Conn.Orderly.rest`).
      So a net without a step has finished (`Orderly.finished`).
   4. `Fits` is what a cluster needs of its queues to agree in every frame on one queue, whatever the
      order of the steps (`agreement`). -/
namespace Lockstep
open Barrier

/-- In every barrier the hub can answer the requests of its clients with what is agreed. -/
structure Conducts (own : Nat → Queue) (clients : List (Nat → Queue)) (agreed : Nat → Queue)
    (last : Nat) : Prop where
  exchange : ∀ queues ∈ clients, Exchange agreed queues last
  responds : ∀ barrier < last, ∃ bytes,
    respond own barrier (clients.map fun queues => request queues barrier) =
      .ok (given agreed barrier, bytes) ∧ (answerOf agreed barrier).encode = .ok bytes

namespace Conn

variable {agreed : Nat → Queue} {last round : Nat} {c c' : Conn}

/-- A connection without a step is at rest: the hub took the client's request, or there are no
    barriers left. -/
theorem Orderly.rest (h : c.Orderly agreed last round) (hs : ∀ c', ¬ c.Step last round c') :
    c.round = round ∧ (c.round < last → c.slot = some (request c.queues round)) := by
  have hup : c.up = [] := Decidable.byContradiction fun hne =>
    hs _ (.carryUp (List.length_pos_iff.2 hne) (Nat.le_refl _))
  have hdown : c.down = [] := Decidable.byContradiction fun hne =>
    hs _ (.carryDown (List.length_pos_iff.2 hne) (Nat.le_refl _))
  cases h.phase with
  | idle hr ha hslot hu hd => exact ⟨hr, fun hl => absurd (.ask hl ha) (hs _)⟩
  | asking hr hl ha hslot hu hd =>
    have hround : round < last := hr ▸ hl
    have harrived : c.near.arrived = [] := Decidable.byContradiction fun hne =>
      hs _ (.takeUp hround (List.length_pos_iff.2 hne) (Nat.le_refl _))
    have hlook := (Link.look_of_unread hu (kind_request c.queues round)).2
    rw [harrived, hup, if_pos (List.append_nil [])] at hlook
    exact absurd (.hear hround hslot hlook) (hs _)
  | heard hr hl ha hslot hu hd => exact ⟨hr, fun _ => hslot⟩
  | answered hr hl ha hslot hu hd =>
    have harrived : c.far.arrived = [] := Decidable.byContradiction fun hne =>
      hs _ (.takeDown ha (List.length_pos_iff.2 hne) (Nat.le_refl _))
    have hlook := (Link.look_of_unread hd (kind_answerOf agreed c.round)).2
    rw [harrived, hdown, if_pos (List.append_nil [])] at hlook
    exact absurd (.read hl ha hlook) (hs _)

theorem queues_of_step (h : c.Step last round c') : c'.queues = c.queues := by
  cases h with
  | ask =>
    rw [ask]
    split <;> rfl
  | carryUp | carryDown | takeUp | takeDown | hear | miss | read | skip | fail => rfl

/-- The hub's answer takes a connection on which it took the request to the next barrier. -/
theorem Orderly.answer (h : c.Orderly agreed last round) {f : Frame} (hs : c.slot = some f)
    {bytes : List UInt8} (hb : (answerOf agreed round).encode = .ok bytes) :
    f = request c.queues round ∧ (c.answer bytes).Orderly agreed last (round + 1) := by
  cases h.phase with
  | idle _ _ hslot | asking _ _ _ hslot | answered _ _ _ hslot =>
    rw [hslot] at hs
    cases hs
  | heard hr hl ha hslot hu hd =>
    refine ⟨Option.some.inj (hs.symm.trans hslot), .answered (congrArg Nat.succ hr) hl ha rfl hu ?_,
      h.results, h.dropped⟩
    have hsent : (c.answer bytes).downward = bytes := by
      show c.far.unread (c.down ++ bytes) = bytes
      rw [Link.unread_append, show c.far.unread c.down = [] from hd, List.nil_append]
    rw [hsent, show (c.answer bytes).round = round from hr, hb]

end Conn

namespace Net

variable {own : Nat → Queue} {clients : List (Nat → Queue)} {agreed : Nat → Queue} {frames : Nat}
  {n n' : Net}

structure Orderly (own : Nat → Queue) (clients : List (Nat → Queue)) (agreed : Nat → Queue)
    (frames : Nat) (n : Net) : Prop where
  queues : n.queues = own
  frames : n.frames = frames
  clients : n.conns.map Conn.queues = clients
  round_le : n.round ≤ n.last
  results : n.results = outcomes agreed n.round
  conns : ∀ c ∈ n.conns, c.Orderly agreed n.last n.round

theorem orderly_start (own : Nat → Queue) (clients : List (Nat → Queue)) (agreed : Nat → Queue)
    (frames : Nat) : (start own clients frames).Orderly own clients agreed frames where
  queues := rfl
  frames := rfl
  clients := by
    rw [start, List.map_map]
    exact List.map_id clients
  round_le := Nat.zero_le _
  results := rfl
  conns := fun c hc => by
    obtain ⟨queues, -, rfl⟩ := List.mem_map.1 hc
    exact Conn.orderly_start agreed queues _

/-! ## Every step -/

/-- The hub's turn in an orderly net: it has the requests of all its clients, answers them with what is
    agreed, and is in the next barrier. -/
theorem Orderly.turn (h : n.Orderly own clients agreed frames)
    (hx : Conducts own clients agreed n.last) (hr : n.round < n.last) {requests : List Frame}
    (hc : Hub.complete (n.conns.map Conn.slot) = some requests) :
    (n.turn requests).Orderly own clients agreed frames := by
  have hslots := Hub.complete_eq_some hc
  have hslot : ∀ c ∈ n.conns, ∃ f, c.slot = some f := by
    intro c hmem
    have : c.slot ∈ requests.map some := hslots ▸ List.mem_map_of_mem hmem
    obtain ⟨f, -, hf⟩ := List.mem_map.1 this
    exact ⟨f, hf.symm⟩
  obtain ⟨bytes, hrespond, hencode⟩ := hx.responds n.round hr
  have hanswer : ∀ c ∈ n.conns, c.slot = some (request c.queues n.round) ∧
      (c.answer bytes).Orderly agreed n.last (n.round + 1) := by
    intro c hmem
    obtain ⟨f, hf⟩ := hslot c hmem
    obtain ⟨rfl, hnext⟩ := (h.conns c hmem).answer hf hencode
    exact ⟨hf, hnext⟩
  -- The slots are in the order of the clients, whatever the order in which the requests came.
  have hrequests : requests = clients.map fun queues => request queues n.round := by
    have hmap : requests.map some = (clients.map fun queues => request queues n.round).map some := by
      rw [← hslots, ← h.clients, List.map_map, List.map_map]
      exact List.map_congr_left fun c hmem => (hanswer c hmem).1
    exact (List.map_inj_right fun _ _ => Option.some.inj).1 hmap
  have hturn : n.turn requests = { n with
      results := n.results ++ [.ok (given agreed n.round)], conns := n.conns.map (.answer bytes) } := by
    rw [Net.turn, h.queues, hrequests, hrespond]
  have hround : (n.turn requests).round = n.round + 1 := by
    rw [hturn, Net.round, List.length_append]
    rfl
  rw [hturn] at hround ⊢
  refine ⟨h.queues, h.frames, ?_, ?_, ?_, ?_⟩
  · show (n.conns.map (.answer bytes)).map Conn.queues = clients
    rw [List.map_map, ← h.clients]
    rfl
  · rw [hround]
    exact hr
  · rw [hround, outcomes_succ, ← h.results]
  · rw [hround]
    intro c hmem
    obtain ⟨c', hmem', rfl⟩ := List.mem_map.1 hmem
    exact (hanswer c' hmem').2

/-- Every step keeps a net orderly. -/
theorem Orderly.step (h : n.Orderly own clients agreed frames)
    (hx : Conducts own clients agreed n.last) (hs : Step n n') :
    n'.Orderly own clients agreed frames := by
  cases hs with
  | turn hr hc => exact h.turn hx hr hc
  | @conn before after c c' hn hstep =>
    have hmem : c ∈ n.conns := by simp [hn]
    have hqueues : c.queues ∈ clients := h.clients ▸ List.mem_map_of_mem hmem
    have hc' := (h.conns c hmem).step (hx.exchange _ hqueues) hstep
    have hsame : c'.queues = c.queues := Conn.queues_of_step hstep
    refine ⟨h.queues, h.frames, ?_, h.round_le, h.results, ?_⟩
    · have := h.clients
      simp only [hn, List.map_append, List.map_cons] at this ⊢
      rw [hsame, this]
    · intro d hd
      rcases List.mem_append.1 hd with hd | hd
      · exact h.conns d (by simp [hn, hd])
      · rcases List.mem_cons.1 hd with rfl | hd
        · exact hc'
        · exact h.conns d (by simp [hn, hd])
  | @fail before after c e reader hr hn hslot hnext =>
    -- What arrived from a client is part of a request, which is a frame.
    have hmem : c ∈ n.conns := by simp [hn]
    obtain ⟨-, hlook⟩ := (h.conns c hmem).phase.hub_look hslot
    rcases hlook with hlook | ⟨hlook, -⟩ <;>
    · rw [hlook] at hnext
      cases hnext

theorem last_of_step (hs : Step n n') : n'.last = n.last := by
  cases hs with
  | conn => rfl
  | fail => rfl
  | turn =>
    rw [turn]
    split <;> rfl

/-- Every state that steps lead to is orderly. -/
theorem Orderly.reach (h : n.Orderly own clients agreed frames)
    (hx : Conducts own clients agreed n.last) (hr : Reach n n') :
    n'.Orderly own clients agreed frames ∧ n'.last = n.last := by
  induction hr with
  | refl => exact ⟨h, rfl⟩
  | step _ hs ih =>
    have hlast := last_of_step hs
    exact ⟨ih.1.step (ih.2 ▸ hx) hs, hlast.trans ih.2⟩

/-- An orderly net without a step has finished all barriers, on every node. -/
theorem Orderly.finished (h : n.Orderly own clients agreed frames) (hs : ∀ n', ¬ Step n n') :
    n.round = n.last ∧ ∀ c ∈ n.conns, c.round = n.last := by
  have hrest : ∀ c ∈ n.conns, c.round = n.round ∧
      (c.round < n.last → c.slot = some (request c.queues n.round)) := by
    intro c hmem
    obtain ⟨before, after, hn⟩ := List.append_of_mem hmem
    exact (h.conns c hmem).rest fun c' hstep => hs _ (.conn hn hstep)
  have hround : n.round = n.last := by
    refine Nat.le_antisymm h.round_le (Nat.le_of_not_lt fun hlt => ?_)
    have hslots : n.conns.map Conn.slot = (n.conns.map fun c => request c.queues n.round).map some := by
      rw [List.map_map]
      exact List.map_congr_left fun c hmem => (hrest c hmem).2 ((hrest c hmem).1 ▸ hlt)
    exact hs _ (.turn hlt (by rw [hslots, Hub.complete_map_some]))
  exact ⟨hround, fun c hmem => (hrest c hmem).1.trans hround⟩

/-- Where a net has finished, no bytes are left on any connection. -/
theorem Orderly.quiet (h : n.Orderly own clients agreed frames) {c : Conn} (hmem : c ∈ n.conns)
    (hc : c.round = n.last) : c.upward = [] ∧ c.downward = [] := by
  cases (h.conns c hmem).phase with
  | idle _ _ _ hu hd => exact ⟨hu, hd⟩
  | asking _ hl | heard _ hl | answered _ hl => exact absurd hl (hc ▸ Nat.lt_irrefl _)

/-! ## Agreement -/

/-- With the queues that gather what the nodes bring, the hub can answer in every barrier. -/
theorem conducts_of_fits (h : Fits own clients frames)
    (ha : ∀ k < frames, Queue.Gathers (brought own clients k) (agreed k) ∧
      (agreed k).render.utf8ByteSize ≤ Frame.maxPayload) :
    Conducts own clients agreed (2 * frames) := by
  have hreply := fun k (hk : k < frames) => h.reply hk (ha k hk).1 (ha k hk).2
  -- An even barrier is about queues, and an odd one carries nothing that could fail.
  constructor
  · intro queues hqueues
    constructor
    · intro barrier hb
      rw [request]
      split
      · exact Frame.exists_encode_events (h.requests queues hqueues _ (by omega))
      · exact ⟨_, rfl⟩
    · intro barrier hb
      rw [answerOf, given]
      split
      · obtain ⟨-, -, -, hparse⟩ := hreply (barrier / 2) (by omega)
        rw [outcomeOf, hparse]
        rfl
      · rfl
  · intro barrier hb
    rw [respond, answerOf, given]
    split
    · rename_i heven
      obtain ⟨bytes, hr, hencode, -⟩ := hreply (barrier / 2) (by omega)
      have hrequests : (clients.map fun queues => request queues barrier) =
          clients.map fun queues => .events (queues (barrier / 2)).render :=
        List.map_congr_left fun queues _ => if_pos heven
      refine ⟨bytes, ?_, hencode⟩
      rw [hrequests, hr]
      rfl
    · exact ⟨_, rfl, rfl⟩

/-- The nodes of a cluster agree. There is one queue for each frame, which gathers what the nodes bring
    to it, and in every state that steps lead to, whatever their order and however they cut the bytes:
    the barriers of the hub and of every client gave these queues so far, and no frame was passed
    over. Where there is no step left, every node has gone through all frames and every byte was read;
    and steps come to an end. -/
theorem agreement (h : Fits own clients frames) :
    ∃ agreed : Nat → Queue, (∀ k < frames, Queue.Gathers (brought own clients k) (agreed k)) ∧
      (∀ n, Reach (start own clients frames) n →
        n.conns.map Conn.queues = clients ∧ n.results = outcomes agreed n.round ∧
        (∀ c ∈ n.conns, c.results = outcomes agreed c.round ∧ c.dropped = []) ∧
        ((∀ n', ¬ Step n n') → n.results = outcomes agreed (2 * frames) ∧
          ∀ c ∈ n.conns, c.results = outcomes agreed (2 * frames) ∧
            c.upward = [] ∧ c.downward = [])) ∧
      (∀ run : Nat → Net, ¬ ∀ i, Step (run i) (run (i + 1))) ∧
      ∀ timeout > 0, ((Cluster.start clients.length timeout).play own clients frames).1 =
        (List.range frames).map fun k => (List.replicate (clients.length + 1) (.ok (agreed k)),
          List.replicate (clients.length + 1) (.ok ())) := by
  have hchoice : ∀ k, ∃ q, k < frames → Queue.Gathers (brought own clients k) q ∧
      q.render.utf8ByteSize ≤ Frame.maxPayload := by
    intro k
    by_cases hk : k < frames
    · obtain ⟨q, hq⟩ := h.answers k hk
      exact ⟨q, fun _ => hq⟩
    · exact ⟨.empty, fun hk' => absurd hk' hk⟩
  obtain ⟨agreed, ha⟩ := Classical.axiomOfChoice hchoice
  refine ⟨agreed, fun k hk => (ha k hk).1, fun n hr => ?_, not_endless,
    fun _ ht => Cluster.play_eq h ht ha⟩
  obtain ⟨ho, hlast⟩ := (orderly_start own clients agreed frames).reach (conducts_of_fits h ha) hr
  have hlast : n.last = 2 * frames := hlast
  refine ⟨ho.clients, ho.results, fun c hc => ⟨(ho.conns c hc).results, (ho.conns c hc).dropped⟩,
    fun hs => ?_⟩
  obtain ⟨hround, hconns⟩ := ho.finished hs
  refine ⟨by rw [ho.results, hround, hlast], fun c hc => ⟨?_, ho.quiet hc (hconns c hc)⟩⟩
  rw [(ho.conns c hc).results, hconns c hc, hlast]

/-! ## Three nodes -/

/-- A registry with one entry. -/
def door (state : String) : Registry :=
  (Registry.empty "index").after [.add "/door" (.datum (.text state))]

/-- The queue of a node that saw the door at a microsecond. -/
def seen (m : UInt64) (state : String) : Queue :=
  ⟨[(⟨m, 0⟩, .snapshot (door state))], List.pairwise_singleton ..⟩

theorem pushed_seen {state : String} (m : UInt64)
    (h : ∀ found ∈ Registry.Forest.listing [] (door state).forest, found.1.length ≤ 255 ∧
      Registry.NamedKeys found.2.attributes ∧ found.2.Legible) : (seen m state).Pushed :=
  .push (t := ⟨m, 0⟩) .empty ((Registry.Reachable.empty "index").after _)
    (Registry.legible_of_listing h).toEnclosable rfl

/-- What the hub's node saw in each frame. -/
def hall (k : Nat) : Queue := if k = 0 then seen 7 "open" else .empty

/-- What the nodes of two clients saw, one of them before the hub's node in every frame. -/
def others : List (Nat → Queue) :=
  [fun k => if k = 0 then seen 7 "shut" else seen 9 "<open>", fun _ => seen 5 "ajar"]

theorem fits_hall : Fits hall others 2 := by
  have hfits : ∀ k < 2, ((Queue.empty.placeAll
      ((brought hall others k).map fun a => (⟨a.1, 0⟩, a.2))).toOption.all fun q =>
        q.render.utf8ByteSize ≤ Frame.maxPayload) = true := by decide +kernel
  have hfew : ∀ k < 2, (brought hall others k).length ≤ 2 ^ 32 := by decide +kernel
  have hrender : ∀ queues ∈ others, ∀ k < 2,
      (queues k).render.utf8ByteSize ≤ Frame.maxPayload := by
    intro queues hqueues k hk
    revert k
    simp only [others, List.mem_cons, List.not_mem_nil, or_false] at hqueues
    rcases hqueues with rfl | rfl <;> decide +kernel
  refine ⟨fun k _ => ?_, fun queues hqueues k _ => ?_, hrender, fun k hk => ?_⟩
  · rw [hall]
    split
    · exact pushed_seen 7 (by decide +kernel)
    · exact .empty
  · simp only [others, List.mem_cons, List.not_mem_nil, or_false] at hqueues
    rcases hqueues with rfl | rfl
    · show (if k = 0 then _ else _ : Queue).Pushed
      split
      · exact pushed_seen 7 (by decide +kernel)
      · exact pushed_seen 9 (by decide +kernel)
    · exact pushed_seen 5 (by decide +kernel)
  · have hcount : ∀ m, Queue.countAt m (brought hall others k) ≤ 2 ^ 32 := fun m =>
      Nat.le_trans List.countP_le_length (hfew k hk)
    obtain ⟨q, hplace, hq⟩ := Queue.exists_gathers hcount
    have := hfits k hk
    rw [hplace] at this
    exact ⟨q, hq, of_decide_eq_true this⟩

theorem agreement_hall :
    ∃ q q' : Queue, q.items.map (fun e => (e.1, e.2.text)) =
        [(⟨5, 0⟩, (door "ajar").renderRoots), (⟨7, 0⟩, (door "open").renderRoots),
          (⟨7, 1⟩, (door "shut").renderRoots)] ∧
      q'.items.map (fun e => (e.1, e.2.text)) =
        [(⟨5, 0⟩, (door "ajar").renderRoots), (⟨9, 0⟩, (door "<open>").renderRoots)] ∧
      ∀ n, Reach (start hall others 2) n → (∀ n', ¬ Step n n') →
        n.results = [.ok (some q), .ok none, .ok (some q'), .ok none] ∧ n.conns.length = 2 ∧
        ∀ c ∈ n.conns, c.results = [.ok (some q), .ok none, .ok (some q'), .ok none] := by
  obtain ⟨agreed, ha, hreach, -⟩ := agreement fits_hall
  have hitems : ∀ k < 2, ((Queue.empty.placeAll
      ((brought hall others k).map fun a => (⟨a.1, 0⟩, a.2))).toOption.map
      fun q => q.items.map fun e => (e.1, e.2.text)) = some (if k = 0 then
        [(⟨5, 0⟩, (door "ajar").renderRoots), (⟨7, 0⟩, (door "open").renderRoots),
          (⟨7, 1⟩, (door "shut").renderRoots)]
      else [(⟨5, 0⟩, (door "ajar").renderRoots), (⟨9, 0⟩, (door "<open>").renderRoots)]) := by
    decide +kernel
  have hzero := hitems 0 (by decide)
  have hone := hitems 1 (by decide)
  rw [(ha 0 (by decide)).placeAll_eq] at hzero
  rw [(ha 1 (by decide)).placeAll_eq] at hone
  refine ⟨agreed 0, agreed 1, Option.some.inj hzero, Option.some.inj hone, fun n hr hs => ?_⟩
  obtain ⟨hqueues, -, -, hdone⟩ := hreach n hr
  obtain ⟨hresults, hconns⟩ := hdone hs
  refine ⟨hresults, ?_, fun c hc => (hconns c hc).1⟩
  have := congrArg List.length hqueues
  rwa [List.length_map] at this

end Net
end Lockstep
