import Mathlib.Data.List.Perm.Basic
import Lockstep.Proofs.Queue.Placement
import Lockstep.Session.Operation

/- Where the events go that are queued in a session.

   1. Over its recorded transport a session does what it does without the record. An events barrier hands
      over what is pending and ends with what the transport gives (`syncEvents_recorded`), and no other
      operation hands anything over (`perform_recorded`).
   2. An event that is queued joins the pending ones, an events barrier leaves none, and nothing else
      touches them (`pending_perform`). So in every run the pending events are those queued since the
      last events barrier (`pending_run`), and each barrier hands over those queued since the one before
      it (`run_recorded`). Every event is still pending or was given to the transport, once
      (`pending_or_given_once`).
   3. Whether that barrier succeeds makes no difference: when it fails, the events it was given are gone
      (`failed_barrier_loses`). -/
namespace Lockstep.Session

section
variable {σ : Type} {s : Session σ} {held : List Event}

/-! ## One operation -/

theorem perm_of_queueEvent {now : UInt64} {p : Payload} {stamp : Stamp} {s' : Session σ}
    (h : s.queueEvent now p = .ok (stamp, s')) :
    s'.pending.items.Perm (s.pending.items ++ [(stamp, p)]) := by
  unfold queueEvent at h
  split at h
  · cases h
  · rename_i hpush
    cases h
    have hone := Queue.perm_of_placeIn (Queue.exists_placeIn_of_place hpush)
    exact hone.trans (List.perm_append_singleton ..).symm

/-- After an operation there are pending the events that its record leaves. -/
theorem pending_perform (h : s.pending.items.Perm held) (op : Operation) :
    (s.perform op).2.pending.items.Perm ((s.perform op).1.leaves held) := by
  cases op with
  | queueEvent now p =>
    simp only [perform]
    split
    · exact h
    · rename_i hqueue
      exact (perm_of_queueEvent hqueue).trans (h.append_right _)
  | syncEvents => exact .refl _
  | syncSwap =>
    have hkept : s.syncSwap.2.pending = s.pending := by
      unfold syncSwap
      split <;> rfl
    show s.syncSwap.2.pending.items.Perm held
    rw [hkept]
    exact h

/-! ### Over the recorded transport -/

theorem queueEvent_recorded (s : Session σ) (handed : List Handover) (now : UInt64) (p : Payload) :
    (s.recorded handed).queueEvent now p =
      (s.queueEvent now p).map fun queued => (queued.1, queued.2.recorded handed) := by
  simp only [queueEvent, recorded]
  cases s.pending.pushAt now p with
  | error e => rfl
  | ok r => rfl

theorem syncSwap_recorded (s : Session σ) (handed : List Handover) :
    (s.recorded handed).syncSwap = (s.syncSwap.1, s.syncSwap.2.recorded handed) := by
  have hswap : (s.recorded handed).transport.syncSwap (s.recorded handed).state =
      ((s.transport.syncSwap s.state).1, (s.transport.syncSwap s.state).2, handed) := rfl
  unfold syncSwap
  rw [hswap]
  rcases s.transport.syncSwap s.state with ⟨e | u, state⟩
  · rfl
  · rfl

/-- An events barrier hands over what is pending, and ends with what the transport gives. -/
theorem syncEvents_recorded (s : Session σ) (handed : List Handover) :
    (s.recorded handed).syncEvents =
      (s.syncEvents.1, s.syncEvents.2.recorded (handed ++ [⟨s.pending, s.syncEvents.1⟩])) := rfl

/-- With its transport recorded, an operation gives the same record and leaves the same session. What
    it hands over comes to what the record tells, and carries the events that were held. -/
theorem perform_recorded (h : s.pending.items.Perm held) (handed : List Handover) (op : Operation) :
    ∃ made, (s.recorded handed).perform op =
        ((s.perform op).1, (s.perform op).2.recorded (handed ++ made)) ∧
      made.map Handover.outcome = outcomesIn [(s.perform op).1] ∧
      List.Forall₂ Handover.Carries made (batches held [(s.perform op).1]) := by
  cases op with
  | queueEvent now p =>
    refine ⟨[], ?_⟩
    simp only [perform, queueEvent_recorded, List.append_nil]
    cases s.queueEvent now p with
    | error e => exact ⟨rfl, rfl, .nil⟩
    | ok r => exact ⟨rfl, rfl, .nil⟩
  | syncEvents =>
    refine ⟨[⟨s.pending, s.syncEvents.1⟩], ?_, rfl, .cons h .nil⟩
    simp only [perform, syncEvents_recorded]
  | syncSwap =>
    refine ⟨[], ?_, rfl, .nil⟩
    simp only [perform, syncSwap_recorded, List.append_nil]

/-! ## A run -/

theorem run_cons (s : Session σ) (op : Operation) (ops : List Operation) :
    s.run (op :: ops) =
      ((s.perform op).1 :: ((s.perform op).2.run ops).1, ((s.perform op).2.run ops).2) := rfl

theorem outcomesIn_cons (r : Record) (log : List Record) :
    outcomesIn (r :: log) = outcomesIn [r] ++ outcomesIn log := by
  cases r <;> rfl

theorem batches_cons (held : List Event) (r : Record) (log : List Record) :
    batches held (r :: log) = batches held [r] ++ batches (r.leaves held) log := by
  cases r <;> rfl

/-- The pending events are those queued since the last events barrier. -/
theorem pending_run (h : s.pending.items.Perm held) (ops : List Operation) :
    (s.run ops).2.pending.items.Perm (unsent held (s.run ops).1) := by
  induction ops generalizing s held with
  | nil => exact h
  | cons op ops ih =>
    rw [run_cons]
    exact ih (pending_perform h op)

/-- With its transport recorded, a run gives the same log and leaves the same session. What its events
    barriers handed over came to what the log tells, and carries the events queued since the barrier
    before. -/
theorem run_recorded (h : s.pending.items.Perm held) (handed : List Handover) (ops : List Operation) :
    ∃ made, (s.recorded handed).run ops =
        ((s.run ops).1, (s.run ops).2.recorded (handed ++ made)) ∧
      made.map Handover.outcome = outcomesIn (s.run ops).1 ∧
      List.Forall₂ Handover.Carries made (batches held (s.run ops).1) := by
  induction ops generalizing s held handed with
  | nil =>
    refine ⟨[], ?_, rfl, .nil⟩
    rw [List.append_nil]
    rfl
  | cons op ops ih =>
    obtain ⟨first, hperform, houtcome, hcarries⟩ := perform_recorded h handed op
    obtain ⟨made, hrun, houtcomes, hrest⟩ := ih (pending_perform h op) (handed ++ first)
    refine ⟨first ++ made, ?_, ?_, ?_⟩
    · rw [run_cons, hperform, hrun, List.append_assoc]
      rfl
    · rw [run_cons, outcomesIn_cons, List.map_append, houtcome, houtcomes]
    · rw [run_cons, batches_cons]
      exact List.rel_append hcarries hrest

/-- What a log leaves, and what there was for its events barriers, is what there was before it and what
    was queued. -/
theorem perm_unsent_batches (held : List Event) (log : List Record) :
    (unsent held log ++ (batches held log).flatten).Perm (held ++ queuedIn log) := by
  induction log generalizing held with
  | nil => exact .refl _
  | cons r log ih =>
    have hrest := ih (r.leaves held)
    cases r with
    | queued e =>
      have hmoved : held ++ [e] ++ queuedIn log = held ++ queuedIn (.queued e :: log) :=
        List.append_assoc held [e] _
      rw [← hmoved]
      exact hrest
    | refused e => exact hrest
    | swapped outcome => exact hrest
    | synced outcome => exact (List.perm_append_comm_assoc ..).trans (hrest.append_left held)

/-- Every event that is queued is still pending or was given to the transport at one events barrier,
    once. That is the first barrier after it was queued, whatever came of it: the pending events are
    those queued since the last events barrier, and the transport was asked once for each barrier, gave
    what the barrier ended with, and was given the events queued since the barrier before it. -/
theorem pending_or_given_once (s : Session σ) (ops : List Operation) :
    ∃ handed,
      (s.recorded []).run ops = ((s.run ops).1, (s.run ops).2.recorded handed) ∧
      handed.map Handover.outcome = outcomesIn (s.run ops).1 ∧
      List.Forall₂ Handover.Carries handed (batches s.pending.items (s.run ops).1) ∧
      (s.run ops).2.pending.items.Perm (unsent s.pending.items (s.run ops).1) ∧
      ((s.run ops).2.pending.items ++ handed.flatMap (·.given.items)).Perm
        (s.pending.items ++ queuedIn (s.run ops).1) := by
  obtain ⟨handed, hrun, houtcomes, hcarries⟩ := run_recorded (.refl s.pending.items) [] ops
  have hpending := pending_run (.refl s.pending.items) ops
  have hgiven : (handed.flatMap (·.given.items)).Perm (batches s.pending.items (s.run ops).1).flatten :=
    List.Perm.flatten_congr (List.forall₂_map_left_iff.mpr hcarries)
  exact ⟨handed, hrun, houtcomes, hcarries, hpending,
    (hpending.append hgiven).trans (perm_unsent_batches ..)⟩

/-- Two operations after which the one event that was queued is not pending, and the transport was
    given it at a barrier that failed, and at no other. -/
theorem failed_barrier_loses :
    let ended := (start Transport.scripted.recorded ([false], []) "").run
      [.queueEvent 5 (.written "a"), .syncEvents]
    (queuedIn ended.1 = [(⟨5, 0⟩, .written "a")] ∧ ended.2.pending.items = [] ∧
      ended.2.state.2.map (fun x => (x.given.items, x.outcome)) =
        [([(⟨5, 0⟩, .written "a")], .error (.disconnected 0))]) ∧
    ¬ ∀ (σ : Type) (transport : Transport σ) (state : σ) (name : String) (ops : List Operation),
      let ended := (start transport.recorded (state, []) name).run ops
      ∀ e ∈ queuedIn ended.1, e ∈ ended.2.pending.items ∨
        ∃ x ∈ ended.2.state.2, (∃ result, x.outcome = .ok result) ∧ e ∈ x.given.items := by
  refine ⟨⟨rfl, rfl, rfl⟩, ?_⟩
  intro h
  have hlost := h (List Bool) .scripted [false] "" [.queueEvent 5 (.written "a"), .syncEvents]
    (⟨5, 0⟩, .written "a") (.head _)
  rcases hlost with hpending | ⟨x, hx, ⟨result, hok⟩, -⟩
  · cases hpending
  · -- The transport was asked once, and that was the failure.
    cases hx with
    | head => cases hok
    | tail _ hx => cases hx

end
end Lockstep.Session
