import Lockstep.Proofs.Queue.Merge
import Lockstep.Queue.Operation

/- The order of a queue that is built without popping.

   1. An operation brings arrivals (`Operation.brought`): a push one, a merge the events of the other
      queue in their order, and a text those of the queue it is read as. Unless a microsecond gets too
      many, each operation adds what it brings to what the queue gathers, and fails only where a text is
      not read (`Gathers.perform`, `Gathers.after`).
   2. What a queue gathers depends on the order of the arrivals within each microsecond alone
      (`Gathers.congr`), so it does not matter in which order queues are merged into one another
      (`Gathers.merge_assoc`).
   3. Merging pushes the events of the other queue one by one (`merge_eq_foldlM`). -/
namespace Lockstep.Queue

/-- What an operation adds to a queue that has places left. -/
def Operation.brought : Operation → List Arrival
  | .push micros p => [(micros, p)]
  | .merge other => other.arrivals
  | .mergeText text =>
    match parse text with
    | .error _ => []
    | .ok other => other.arrivals
  | .pop => []

/-- Why an operation adds nothing: its text is not read. -/
def Operation.refusal : Operation → Option Error
  | .mergeText text =>
    match parse text with
    | .error e => some e
    | .ok _ => none
  | _ => none

/-- What operations bring, in the order of arrival. -/
def received (ops : List Operation) : List Arrival := ops.flatMap Operation.brought

theorem received_append (ops more : List Operation) :
    received (ops ++ more) = received ops ++ received more := List.flatMap_append

theorem received_cons (op : Operation) (ops : List Operation) :
    received (op :: ops) = op.brought ++ received ops := List.flatMap_cons

section
variable {q a b c : Queue} {arrived arrived' : List Arrival} {op : Operation} {ops : List Operation}

/-! ## What operations gather -/

theorem Gathers.perform_push (h : Gathers arrived q) {micros : UInt64} {p : Payload}
    (hc : countAt micros arrived < 2 ^ 32) :
    (q.perform (.push micros p)).1 = none ∧
      Gathers (arrived ++ [(micros, p)]) (q.perform (.push micros p)).2 := by
  obtain ⟨t, q', hpush⟩ := h.exists_pushAt hc p
  rw [perform, hpush]
  exact ⟨rfl, h.pushAt hpush⟩

theorem Gathers.perform_merge (h : Gathers arrived q) {other : Queue}
    (hc : ∀ m, countAt m (arrived ++ other.arrivals) ≤ 2 ^ 32) :
    (q.perform (.merge other)).1 = none ∧
      Gathers (arrived ++ other.arrivals) (q.perform (.merge other)).2 := by
  obtain ⟨merged, hmerge, hmerged⟩ := h.exists_merge hc
  rw [perform, hmerge]
  exact ⟨rfl, hmerged⟩

/-- An operation adds what it brings, and fails only where it brings nothing. -/
theorem Gathers.perform (h : Gathers arrived q) (hop : op ≠ .pop)
    (hc : ∀ m, countAt m (arrived ++ op.brought) ≤ 2 ^ 32) :
    (q.perform op).1 = op.refusal ∧ Gathers (arrived ++ op.brought) (q.perform op).2 := by
  cases op with
  | push micros p =>
    refine h.perform_push ?_
    have hone : countAt micros [(micros, p)] = 1 := by simp [countAt]
    have := hc micros
    rw [Operation.brought, countAt_append, hone] at this
    omega
  | merge other => exact h.perform_merge hc
  | mergeText text =>
    cases hparse : parse text with
    | error e =>
      simp only [Queue.perform, Operation.refusal, Operation.brought, mergeText, hparse, orUnchanged,
        List.append_nil]
      exact ⟨trivial, h⟩
    | ok other =>
      simp only [Operation.brought, hparse] at hc
      simp only [Queue.perform, Operation.refusal, Operation.brought, mergeText, hparse]
      exact h.perform_merge hc
  | pop => exact absurd rfl hop

theorem countAt_le_append (m : UInt64) (arrived more : List Arrival) :
    countAt m arrived ≤ countAt m (arrived ++ more) := by
  rw [countAt_append]
  exact Nat.le_add_right _ _

/-- What a queue gathers over operations that only add. -/
theorem Gathers.after (h : Gathers arrived q) (hops : .pop ∉ ops)
    (hc : ∀ m, countAt m (arrived ++ received ops) ≤ 2 ^ 32) :
    Gathers (arrived ++ received ops) (q.after ops) := by
  induction ops generalizing arrived q with
  | nil =>
    rw [received, List.flatMap_nil, List.append_nil]
    exact h
  | cons op ops ih =>
    obtain ⟨hop, hops⟩ := not_or.1 (mt List.mem_cons.2 hops)
    rw [received_cons, ← List.append_assoc] at hc ⊢
    have hfits := fun m => Nat.le_trans (countAt_le_append m _ _) (hc m)
    exact ih (h.perform (Ne.symm hop) hfits).2 hops hc

/-! ## Merging queues into one another -/

/-- What is gathered is told by the arrivals within each microsecond. -/
theorem Gathers.congr (h : Gathers arrived q)
    (hsame : ∀ m, arrived.filter (fun a => a.1 = m) = arrived'.filter fun a => a.1 = m) :
    Gathers arrived' q where
  order := h.order.trans (eq_mergeSort
    (List.pairwise_mergeSort noLater_trans noLater_total arrived) fun m => by
      rw [filter_mergeSort, hsame])
  seqs := fun m => by
    rw [h.seqs, countAt, countAt, List.countP_eq_length_filter, List.countP_eq_length_filter, hsame]

theorem Gathers.filter_arrivals (h : Gathers arrived q) (m : UInt64) :
    q.arrivals.filter (fun a => a.1 = m) = arrived.filter fun a => a.1 = m := by
  rw [h.order, filter_mergeSort]

theorem Gathers.countAt_arrivals (h : Gathers arrived q) (m : UInt64) :
    countAt m q.arrivals = countAt m arrived := by
  rw [countAt, countAt, h.order, (List.mergeSort_perm arrived noLater).countP_eq]

/-- To merge two queues one after the other is to merge the first of them with the second merged into
    it. -/
theorem Gathers.merge_assoc (ha : Gathers arrived a) (hb : Gathers arrived' b)
    (hc : ∀ m, countAt m arrived + countAt m arrived' + countAt m c.arrivals ≤ 2 ^ 32) :
    ∃ ab bc abc, a.merge b = .ok ab ∧ ab.merge c = .ok abc ∧ b.merge c = .ok bc ∧
      a.merge bc = .ok abc := by
  have hb' := fun m => hb.countAt_arrivals m
  obtain ⟨ab, hab, hab'⟩ := ha.exists_merge fun m => show countAt m (arrived ++ b.arrivals) ≤ _ by
    have := hc m
    rw [countAt_append, hb']
    omega
  obtain ⟨bc, hbc, hbc'⟩ := hb.exists_merge fun m => show countAt m (arrived' ++ c.arrivals) ≤ _ by
    have := hc m
    rw [countAt_append]
    omega
  obtain ⟨abc, habc, habc'⟩ := hab'.exists_merge fun m =>
    show countAt m (arrived ++ b.arrivals ++ c.arrivals) ≤ _ by
      have := hc m
      rw [countAt_append, countAt_append, hb']
      omega
  obtain ⟨abc', hright, hright'⟩ := ha.exists_merge fun m =>
    show countAt m (arrived ++ bc.arrivals) ≤ _ by
      have := hc m
      rw [countAt_append, hbc'.countAt_arrivals, countAt_append]
      omega
  -- Either way the arrivals of a microsecond are those of the three queues in turn.
  have hsame : Gathers (arrived ++ b.arrivals ++ c.arrivals) abc' := hright'.congr fun m => by
    simp only [List.filter_append, hbc'.filter_arrivals, hb.filter_arrivals, List.append_assoc]
  exact ⟨ab, bc, abc, hab, habc, hbc, by rw [hright, habc'.unique hsame]⟩

theorem placeAll_eq_foldlM (q : Queue) (arrived : List Arrival) :
    q.placeAll (arrived.map fun a => (⟨a.1, 0⟩, a.2)) =
      arrived.foldlM (fun q a => (q.pushAt a.1 a.2).map Prod.snd) q := by
  induction arrived generalizing q with
  | nil => rfl
  | cons a arrived ih =>
    rw [List.map_cons, placeAll, List.foldlM_cons, pushAt]
    cases q.place ⟨a.1, 0⟩ a.2 with
    | error e => rfl
    | ok placed => exact ih placed.2

/-- Merging is pushing the events of the other queue, each at its microsecond. -/
theorem merge_eq_foldlM (q other : Queue) :
    q.merge other = other.arrivals.foldlM (fun q a => (q.pushAt a.1 a.2).map Prod.snd) q := by
  rw [← placeAll_eq_foldlM, arrivals, List.map_map]
  rfl

end

/-! ## Queues that are built by adding -/

section
variable {opsA opsB opsC done rest ops : List Operation} {op : Operation}

theorem gathers_after (hops : .pop ∉ ops) (hc : ∀ m, countAt m (received ops) ≤ 2 ^ 32) :
    Gathers (received ops) (empty.after ops) := gathers_empty.after hops hc

theorem size_after (hops : .pop ∉ ops) (hc : ∀ m, countAt m (received ops) ≤ 2 ^ 32) :
    (empty.after ops).size = (received ops).length := by
  rw [← (List.mergeSort_perm (received ops) noLater).length_eq, ← (gathers_after hops hc).order,
    arrivals, List.length_map, size]

/-- No operation fails for want of a place. -/
theorem perform_after (hops : .pop ∉ done ++ op :: rest)
    (hc : ∀ m, countAt m (received (done ++ op :: rest)) ≤ 2 ^ 32) :
    ((empty.after done).perform op).1 = op.refusal := by
  rw [List.mem_append, List.mem_cons, not_or, not_or] at hops
  rw [received_append, received_cons, ← List.append_assoc] at hc
  have hfits := fun m => Nat.le_trans (countAt_le_append m _ _) (hc m)
  have hdone := gathers_after hops.1 fun m => Nat.le_trans (countAt_le_append m _ _) (hfits m)
  exact (hdone.perform (Ne.symm hops.2.1) hfits).1

theorem merge_assoc_after (hops : .pop ∉ opsA ++ opsB ++ opsC)
    (hc : ∀ m, countAt m (received (opsA ++ opsB ++ opsC)) ≤ 2 ^ 32) :
    ∃ ab bc abc, (empty.after opsA).merge (empty.after opsB) = .ok ab ∧
      ab.merge (empty.after opsC) = .ok abc ∧
      (empty.after opsB).merge (empty.after opsC) = .ok bc ∧
      (empty.after opsA).merge bc = .ok abc := by
  simp only [List.mem_append, not_or] at hops
  obtain ⟨⟨hA, hB⟩, hC⟩ := hops
  simp only [received_append, countAt_append] at hc
  have ha := gathers_after hA fun m => by have := hc m; omega
  have hb := gathers_after hB fun m => by have := hc m; omega
  have hc' := gathers_after hC fun m => by have := hc m; omega
  exact ha.merge_assoc hb fun m => by rw [hc'.countAt_arrivals]; exact hc m

end

/-- The order of a queue that was built by pushing and merging, where no microsecond gets more events
    than there are sequence numbers. Every operation works but the reading of a text that is no queue;
    the events are in the stable order of their microseconds, with the numbers from zero on within each,
    and none is lost. Such queues can be merged in either order, and to merge a queue is to push its
    events one by one. -/
theorem order_after :
    (∀ ops : List Operation, .pop ∉ ops → (∀ m, countAt m (received ops) ≤ 2 ^ 32) →
      (∀ done op rest, ops = done ++ op :: rest →
        ((empty.after done).perform op).1 = op.refusal) ∧
      (empty.after ops).arrivals = (received ops).mergeSort noLater ∧
      (∀ m, seqsAt m (empty.after ops).items = List.range (countAt m (received ops))) ∧
      (empty.after ops).size = (received ops).length) ∧
    (∀ opsA opsB opsC : List Operation, .pop ∉ opsA ++ opsB ++ opsC →
      (∀ m, countAt m (received (opsA ++ opsB ++ opsC)) ≤ 2 ^ 32) →
      ∃ ab bc abc, (empty.after opsA).merge (empty.after opsB) = .ok ab ∧
        ab.merge (empty.after opsC) = .ok abc ∧
        (empty.after opsB).merge (empty.after opsC) = .ok bc ∧
        (empty.after opsA).merge bc = .ok abc) ∧
    ∀ q other : Queue, q.merge other =
      other.arrivals.foldlM (fun q a => (q.pushAt a.1 a.2).map Prod.snd) q := by
  refine ⟨fun ops hops hc => ?_, fun opsA opsB opsC => merge_assoc_after, merge_eq_foldlM⟩
  have hall := gathers_after hops hc
  exact ⟨fun done op rest h => perform_after (h ▸ hops) (h ▸ hc), hall.order, hall.seqs,
    size_after hops hc⟩

/-- Pushes at two microseconds, a merged queue whose numbers do not start at zero, a text with an event,
    and one that is no queue. -/
def mixed : List Operation :=
  [.push 7 (.written "a"),
    .merge (empty.after [.push 7 (.written "x"), .push 7 (.written "b"), .pop]),
    .push 5 (.written "c"), .mergeText "<Queue num=\"1\"><Item timeStamp=\"7-4\">d</Item></Queue>",
    .mergeText "<Queue>"]

theorem order_after_mixed :
    (.pop ∉ mixed ∧ (∀ m, countAt m (received mixed) ≤ 2 ^ 32)) ∧
      (.pop ∉ mixed ++ [.push 7 (.written "e")] ++ mixed ∧
        ∀ m, countAt m (received (mixed ++ [.push 7 (.written "e")] ++ mixed)) ≤ 2 ^ 32) ∧
      (empty.after mixed).size = 4 ∧ seqsAt 7 (empty.after mixed).items = [0, 1, 2] ∧
      (∀ done op rest, mixed = done ++ op :: rest →
        ((empty.after done).perform op).1 = op.refusal) ∧
      ∃ ab bc abc, (empty.after mixed).merge (empty.after [.push 7 (.written "e")]) = .ok ab ∧
        ab.merge (empty.after mixed) = .ok abc ∧
        (empty.after [.push 7 (.written "e")]).merge (empty.after mixed) = .ok bc ∧
        (empty.after mixed).merge bc = .ok abc := by
  have hmicros : (received mixed).map Prod.fst = [7, 7, 5, 7] := by decide +kernel
  have hcount : ∀ (arrived : List Arrival) (m : UInt64), arrived.length ≤ 2 ^ 32 →
      countAt m arrived ≤ 2 ^ 32 := fun arrived m h => Nat.le_trans List.countP_le_length h
  have hlength : (received mixed).length = 4 := by
    rw [← List.length_map (f := Prod.fst), hmicros]
    rfl
  have hops : .pop ∉ mixed := by simp [mixed]
  have hmore : .pop ∉ mixed ++ [.push 7 (.written "e")] ++ mixed := by simp [mixed]
  have hc := fun m => hcount (received mixed) m (by rw [hlength]; decide)
  have hc' := fun m => hcount (received (mixed ++ [.push 7 (.written "e")] ++ mixed)) m (by
    rw [received_append, received_append, List.length_append, List.length_append, hlength]
    decide)
  have hthree : countAt 7 (received mixed) = 3 := by
    have : countAt 7 (received mixed) = ((received mixed).map Prod.fst).countP (· = 7) := by
      rw [List.countP_map]
      rfl
    rw [this, hmicros]
    rfl
  obtain ⟨hworks, -, hseqs, hsize⟩ := order_after.1 mixed hops hc
  exact ⟨⟨hops, hc⟩, ⟨hmore, hc'⟩, hsize.trans hlength, by rw [hseqs, hthree]; rfl, hworks,
    order_after.2.1 mixed _ mixed hmore hc'⟩

end Lockstep.Queue
