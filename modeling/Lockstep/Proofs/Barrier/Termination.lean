import Mathlib.Algebra.GroupWithZero.Nat
import Mathlib.Order.WellFounded
import Lockstep.Barrier.Network

/- Every run of a cluster ends.

   1. `Net.remaining` counts what the nodes still have to do: barriers to ask for, to take a request in
      and to finish. `Net.volume` weighs the bytes that were not read by how far they still have to go.
   2. A step of a node takes from the first. All other steps leave it as it is and take from the second
      (`Conn.lt_of_step`, `Net.lt_of_step`). So no sequence of steps is endless, whatever the queues
      are and whatever goes wrong (`wellFounded_step`). -/
namespace Lockstep

namespace Conn

/-- What the client and the hub still have to do on a connection, with two for each barrier of the
    client. -/
def remaining (last : Nat) (c : Conn) : Nat :=
  2 * (last - c.round) + (if c.asked then 0 else 1) + if c.slot.isNone then 1 else 0

/-- The bytes that were not read: three for one under way, two for one that arrived, one for one that
    is held. -/
def volume (c : Conn) : Nat :=
  3 * (c.up.length + c.down.length) + 2 * (c.near.arrived.length + c.far.arrived.length) +
    (c.near.reader.held.length + c.far.reader.held.length)

section
variable {last round n : Nat} {c c' : Conn} {o : Outcome}

theorem remaining_settle (h : c.round < last) (o : Outcome) :
    (c.settle o).remaining last < c.remaining last := by
  rw [remaining, remaining, round_settle]
  show 2 * (last - (c.round + 1)) + 1 + (if c.slot.isNone then 1 else 0) < _
  omega

theorem remaining_ask (h : c.round < last) (ha : c.asked = false) :
    c.ask.remaining last < c.remaining last := by
  rw [ask]
  split
  · exact remaining_settle h _
  · simp only [remaining, ha]
    show 2 * (last - c.round) + 0 + _ < 2 * (last - c.round) + 1 + _
    omega

theorem volume_carryUp (hn : 0 < n) (hl : n ≤ c.up.length) : (c.carryUp n).volume < c.volume := by
  simp only [volume, carryUp, Link.arrive, List.length_append, List.length_take, List.length_drop]
  omega

theorem volume_carryDown (hn : 0 < n) (hl : n ≤ c.down.length) :
    (c.carryDown n).volume < c.volume := by
  simp only [volume, carryDown, Link.arrive, List.length_append, List.length_take, List.length_drop]
  omega

theorem volume_takeUp (hn : 0 < n) (hl : n ≤ c.near.arrived.length) :
    (c.takeUp n).volume < c.volume := by
  simp only [volume, takeUp, Link.takeIn, Reader.feed, List.length_append, List.length_take,
    List.length_drop]
  omega

theorem volume_takeDown (hn : 0 < n) (hl : n ≤ c.far.arrived.length) :
    (c.takeDown n).volume < c.volume := by
  simp only [volume, takeDown, Link.takeIn, Reader.feed, List.length_append, List.length_take,
    List.length_drop]
  omega

theorem volume_heard {want : Frame.Kind} {reader : Reader}
    (h : reader.held.length < c.near.reader.held.length) :
    (c.heard want reader).volume < c.volume := by
  simp only [volume, heard]
  omega

theorem volume_read {want : Frame.Kind} {reader : Reader}
    (h : reader.held.length < c.far.reader.held.length) :
    (c.read want reader).volume < c.volume := by
  simp only [volume, read]
  omega

/-- A step of a connection leaves less to do, or as much and bytes that have less far to go. -/
theorem lt_of_step (h : c.Step last round c') :
    c'.remaining last < c.remaining last ∨
      c'.remaining last = c.remaining last ∧ c'.volume < c.volume := by
  cases h with
  | ask hr ha => exact .inl (remaining_ask hr ha)
  | carryUp hn hl => exact .inr ⟨rfl, volume_carryUp hn hl⟩
  | carryDown hn hl => exact .inr ⟨rfl, volume_carryDown hn hl⟩
  | takeUp hr hn hl => exact .inr ⟨rfl, volume_takeUp hn hl⟩
  | takeDown ha hn hl => exact .inr ⟨rfl, volume_takeDown hn hl⟩
  | hear hr hs h =>
    refine .inl ?_
    simp only [remaining, hs]
    exact Nat.lt_succ_self _
  | miss hr hs h hl => exact .inr ⟨rfl, volume_heard hl⟩
  | read hr ha h => exact .inl (remaining_settle (c := c.read _ _) hr _)
  | skip ha h hl => exact .inr ⟨rfl, volume_read hl⟩
  | fail hr ha h => exact .inl (remaining_settle (c := c.read _ _) hr _)

theorem remaining_clear_le (last : Nat) (c : Conn) :
    c.clear.remaining last ≤ c.remaining last + 1 := by
  show _ + _ + 1 ≤ _ + _ + _ + 1
  exact Nat.add_le_add_right (Nat.le_add_right ..) 1

theorem remaining_answer_le (last : Nat) (bytes : List UInt8) (c : Conn) :
    (c.answer bytes).remaining last ≤ c.remaining last + 1 := remaining_clear_le last c

end

end Conn

namespace Net

/-- What all nodes still have to do. A barrier of the hub outweighs the requests that it gives up. -/
def remaining (n : Net) : Nat :=
  (n.conns.map (Conn.remaining n.last)).sum + (n.last - n.round) * (n.conns.length + 1)

/-- The bytes of all connections that were not read. -/
def volume (n : Net) : Nat := (n.conns.map Conn.volume).sum

theorem sum_map_le {f g : Conn → Nat} (h : ∀ c, f c ≤ g c + 1) (conns : List Conn) :
    (conns.map f).sum ≤ (conns.map g).sum + conns.length := by
  induction conns with
  | nil => exact Nat.le_refl 0
  | cons c conns ih =>
    have := h c
    simp only [List.map_cons, List.sum_cons, List.length_cons]
    omega

/-- A barrier of the hub that ends leaves less to do. -/
theorem remaining_lt_of_round {n : Net} {results : List Outcome} {f : Conn → Conn} {o : Outcome}
    (hr : n.round < n.last) (hresults : results = n.results ++ [o])
    (hf : ∀ c, (f c).remaining n.last ≤ c.remaining n.last + 1) :
    ({ n with results, conns := n.conns.map f } : Net).remaining < n.remaining := by
  have hsum := sum_map_le hf n.conns
  have hround : results.length = n.round + 1 := by
    rw [hresults, List.length_append]
    rfl
  -- The barrier is worth one more than the connections that lose their requests in it.
  have hsplit : (n.last - n.round) * (n.conns.length + 1) =
      (n.last - (n.round + 1)) * (n.conns.length + 1) + (n.conns.length + 1) := by
    rw [← Nat.succ_mul]
    congr 1
    omega
  show ((n.conns.map f).map (Conn.remaining n.last)).sum +
    (n.last - results.length) * ((n.conns.map f).length + 1) < _
  rw [remaining, hround, hsplit, List.map_map, List.length_map]
  show (n.conns.map fun c => (f c).remaining n.last).sum + _ < _
  omega

/-- A step leaves less to do, or as much and bytes that have less far to go. -/
theorem lt_of_step {n n' : Net} (h : Step n n') :
    n'.remaining < n.remaining ∨ n'.remaining = n.remaining ∧ n'.volume < n.volume := by
  cases h with
  | @conn before after c c' hn h =>
    have hsum : ∀ f : Conn → Nat, ((before ++ c' :: after).map f).sum + f c =
        (n.conns.map f).sum + f c' := by
      intro f
      simp only [hn, List.map_append, List.map_cons, List.sum_append, List.sum_cons]
      omega
    have hlength : (before ++ c' :: after).length = n.conns.length := by
      rw [hn, List.length_append, List.length_append]
      rfl
    -- Only what this connection has to do, or its bytes, changed.
    have hremaining : ({ n with conns := before ++ c' :: after } : Net).remaining +
        c.remaining n.last = n.remaining + c'.remaining n.last := by
      have := hsum (Conn.remaining n.last)
      show ((before ++ c' :: after).map (Conn.remaining n.last)).sum +
        (n.last - n.round) * ((before ++ c' :: after).length + 1) + _ = _
      rw [hlength, remaining]
      omega
    have hvolume : ({ n with conns := before ++ c' :: after } : Net).volume + c.volume =
        n.volume + c'.volume := hsum Conn.volume
    rcases Conn.lt_of_step h with hlt | ⟨heq, hlt⟩
    · left
      omega
    · right
      constructor <;> omega
  | turn hr h =>
    left
    rw [turn]
    split
    · exact remaining_lt_of_round hr rfl (Conn.remaining_clear_le n.last)
    · rename_i bytes _
      exact remaining_lt_of_round hr rfl (Conn.remaining_answer_le n.last bytes)
  | @fail before after c e reader hr hn hs h =>
    left
    -- Reading on one connection changes what is held, not what is to do.
    have := remaining_lt_of_round (o := .error (.frame e))
      (n := { n with conns := before ++ c.heard (Barrier.requestKind n.round) reader :: after })
      hr rfl (Conn.remaining_clear_le n.last)
    refine Nat.lt_of_lt_of_le this (Nat.le_of_eq ?_)
    rw [remaining, remaining, hn]
    simp only [List.map_append, List.map_cons, List.length_append, List.length_cons]
    rfl

/-- Whatever the queues are and whatever goes wrong, steps come to an end. -/
theorem wellFounded_step : WellFounded fun n' n : Net => Step n n' := by
  refine Subrelation.wf
    (r := InvImage (Prod.Lex (· < ·) (· < ·)) fun n : Net => (n.remaining, n.volume))
    (fun {n' n} h => ?_) (InvImage.wf _ (Prod.lex Nat.lt_wfRel Nat.lt_wfRel).wf)
  show Prod.Lex (· < ·) (· < ·) (n'.remaining, n'.volume) (n.remaining, n.volume)
  rcases lt_of_step h with hlt | ⟨heq, hlt⟩
  · exact .left _ _ hlt
  · rw [heq]
    exact .right _ hlt

/-- No run is endless. -/
theorem not_endless (run : Nat → Net) : ¬ ∀ i, Step (run i) (run (i + 1)) := fun h =>
  (wellFounded_iff_isEmpty_descending_chain.1 wellFounded_step).false ⟨run, h⟩

end Net
end Lockstep
