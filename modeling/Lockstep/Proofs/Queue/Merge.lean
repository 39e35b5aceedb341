import Lockstep.Proofs.Queue.Canonical

/- The order of a queue that others were merged into.

   1. `Gathers arrived q` says what a queue holds after events arrived, each at a microsecond: their
      stable sort by microseconds, numbered from zero within each (`seqsAt`). There is at most one such
      queue (`Gathers.unique`).
   2. An event that is pushed goes behind those of its microsecond and before all later ones, unless
      that microsecond is full (`placeIn_at`). So pushing and merging add arrivals at the end
      (`Gathers.pushAt`, `Gathers.exists_merge`).
   3. What arrives with the text of each payload in its place gathers in the same order, under the same
      numbers (`Gathers.written`). -/
namespace Lockstep.Queue

/-- What arrives: a payload at a microsecond. -/
abbrev Arrival := UInt64 × Payload

/-- The events of a queue as they arrive elsewhere. -/
def arrivals (q : Queue) : List Arrival := q.items.map fun e => (e.1.micros, e.2)

/-- The order of arrivals: by microsecond alone. -/
def noLater (a b : Arrival) : Bool := decide (a.1 ≤ b.1)

/-- The sequence numbers in use at a microsecond, in the order of the events. -/
def seqsAt (m : UInt64) (items : List Event) : List Nat :=
  (items.filter fun e => e.1.micros = m).map fun e => e.1.seq.toNat

/-- How many arrivals there are at a microsecond. -/
def countAt (m : UInt64) (arrived : List Arrival) : Nat := arrived.countP fun a => a.1 = m

/-- A queue with all that arrived: in the stable order of their microseconds, and with the numbers from
    zero on within each. -/
structure Gathers (arrived : List Arrival) (q : Queue) : Prop where
  order : q.arrivals = arrived.mergeSort noLater
  seqs : ∀ m, seqsAt m q.items = List.range (countAt m arrived)

/-! ## The stable order -/

theorem noLater_trans (a b c : Arrival) (h : noLater a b) (h' : noLater b c) : noLater a c := by
  simp only [noLater, decide_eq_true_eq] at *
  exact UInt64.le_trans h h'

theorem noLater_total (a b : Arrival) : noLater a b || noLater b a := by
  simp only [noLater, Bool.or_eq_true, decide_eq_true_eq]
  exact UInt64.le_total a.1 b.1

/-- Two lists in order that agree within every microsecond are the same. -/
theorem eq_of_filter_eq {l l' : List Arrival} (hl : l.Pairwise fun a b => noLater a b)
    (hl' : l'.Pairwise fun a b => noLater a b)
    (h : ∀ m, l.filter (fun a => a.1 = m) = l'.filter fun a => a.1 = m) : l = l' := by
  -- The first of each list is in the other, so neither is later than the other.
  have hmem : ∀ {k k' : List Arrival},
      (∀ m, k.filter (fun a => a.1 = m) = k'.filter fun a => a.1 = m) → ∀ a ∈ k, a ∈ k' := by
    intro k k' hk a ha
    have : a ∈ k.filter fun b => b.1 = a.1 := List.mem_filter.2 ⟨ha, decide_eq_true rfl⟩
    rw [hk] at this
    exact (List.mem_filter.1 this).1
  have hfirst : ∀ {a b : Arrival} {k : List Arrival}, (b :: k).Pairwise (fun a b => noLater a b) →
      a ∈ b :: k → b.1 ≤ a.1 := by
    intro a b k hk ha
    rcases List.mem_cons.1 ha with rfl | ha
    · exact UInt64.le_refl _
    · exact of_decide_eq_true ((List.pairwise_cons.1 hk).1 a ha)
  induction l generalizing l' with
  | nil =>
    cases l' with
    | nil => rfl
    | cons b k => exact absurd (hmem (fun m => (h m).symm) b List.mem_cons_self) List.not_mem_nil
  | cons a l ih =>
    cases l' with
    | nil => exact absurd (hmem h a List.mem_cons_self) List.not_mem_nil
    | cons b l' =>
      have hle := hfirst hl' (hmem h a List.mem_cons_self)
      have hge := hfirst hl (hmem (fun m => (h m).symm) b List.mem_cons_self)
      have hsame : b.1 = a.1 := UInt64.le_antisymm hle hge
      have hhead := h a.1
      simp only [List.filter_cons, hsame, decide_true, if_true] at hhead
      obtain ⟨rfl, -⟩ := List.cons.inj hhead
      refine congrArg (a :: ·) (ih hl.tail hl'.tail fun m => ?_)
      have := h m
      by_cases hm : a.1 = m
      · simp only [List.filter_cons, hm, decide_true, if_true] at this
        exact (List.cons.inj this).2
      · simpa only [List.filter_cons, hm, decide_false, Bool.false_eq_true, if_false] using this

/-- Sorting keeps the order within a microsecond. -/
theorem filter_mergeSort (l : List Arrival) (m : UInt64) :
    (l.mergeSort noLater).filter (fun a => a.1 = m) = l.filter fun a => a.1 = m := by
  have hsame : (l.filter fun a => a.1 = m).Pairwise fun a b => noLater a b := by
    refine List.Pairwise.imp_of_mem (R := fun _ _ => True) (fun {a b} ha hb _ => ?_)
      (List.pairwise_of_forall fun _ _ => trivial)
    have ha := of_decide_eq_true (List.mem_filter.1 ha).2
    have hb := of_decide_eq_true (List.mem_filter.1 hb).2
    exact decide_eq_true (by rw [ha, hb]; exact UInt64.le_refl m)
  have hsub := (List.sublist_mergeSort noLater_trans noLater_total hsame
    List.filter_sublist).filter fun a => a.1 = m
  rw [List.filter_filter] at hsub
  simp only [Bool.and_self] at hsub
  -- A sublist that is as long is the whole list.
  have hperm := ((List.mergeSort_perm l noLater).filter fun a => a.1 = m).length_eq
  exact (hsub.eq_of_length hperm.symm).symm

theorem eq_mergeSort {l arrived : List Arrival} (hl : l.Pairwise fun a b => noLater a b)
    (h : ∀ m, l.filter (fun a => a.1 = m) = arrived.filter fun a => a.1 = m) :
    l = arrived.mergeSort noLater :=
  eq_of_filter_eq hl (List.pairwise_mergeSort noLater_trans noLater_total arrived) fun m => by
    rw [h, filter_mergeSort]

/-! ## Placing at a microsecond -/

theorem micros_le_of_rising {item : Event} {rest : List Event} (h : Rising (item :: rest)) :
    ∀ e ∈ item :: rest, item.1.micros ≤ e.1.micros := by
  intro e he
  rcases List.mem_cons.1 he with rfl | he
  · exact UInt64.le_refl _
  · rcases (List.pairwise_cons.1 h).1 e he with hlt | ⟨heq, -⟩
    · exact UInt64.le_of_lt hlt
    · exact heq ▸ UInt64.le_refl _

theorem seqsAt_of_forall_ne {m : UInt64} {items : List Event} (h : ∀ e ∈ items, e.1.micros ≠ m) :
    seqsAt m items = [] := by
  rw [seqsAt, List.map_eq_nil_iff, List.filter_eq_nil_iff]
  exact fun e he => by simpa using h e he

/-- Where the sequence numbers of a microsecond go from `k` to `k + n`, an event that asks for `k` goes
    behind them, unless that is past the last one. -/
theorem placeIn_at {m : UInt64} {k n : Nat} {items : List Event} (hr : Rising items) (hk : k < 2 ^ 32)
    (hs : seqsAt m items = List.range' k n) (p : Payload) :
    placeIn ⟨m, .ofNat k⟩ p items =
      if k + n < 2 ^ 32 then
        some (⟨m, .ofNat (k + n)⟩, items.takeWhile (fun e => e.1.micros ≤ m) ++
          (⟨m, .ofNat (k + n)⟩, p) :: items.dropWhile fun e => e.1.micros ≤ m)
      else none := by
  induction items generalizing k n with
  | nil =>
    cases n with
    | zero => exact (if_pos hk).symm
    | succ n => cases hs
  | cons item rest ih =>
    have hrest : Rising rest := hr.tail
    have hcases := (UInt64.le_or_lt item.1.micros m).imp_left UInt64.lt_or_eq_of_le
    rcases hcases with (hlt | heq) | hgt
    · -- An earlier event is passed.
      have hne : item.1.micros ≠ m := fun h => UInt64.lt_irrefl m (h ▸ hlt)
      have hnot : ¬ (⟨m, .ofNat k⟩ : Stamp) < item.1 := by
        rintro (h | ⟨h, -⟩)
        · exact UInt64.lt_irrefl m (UInt64.lt_trans h hlt)
        · exact hne h.symm
      have hstamp : (⟨m, .ofNat k⟩ : Stamp) ≠ item.1 := fun h => hne (h ▸ rfl)
      have htail : seqsAt m rest = List.range' k n := by
        rw [← hs, seqsAt, seqsAt, List.filter_cons_of_neg (by simpa using hne)]
      rw [placeIn, if_neg hnot, if_neg hstamp, ih hrest hk htail]
      simp only [List.takeWhile_cons, List.dropWhile_cons, UInt64.le_of_lt hlt, decide_true, if_true]
      split <;> rfl
    · -- An event of the same microsecond has the number that is asked for.
      have hcons : seqsAt m (item :: rest) = item.1.seq.toNat :: seqsAt m rest := by
        rw [seqsAt, List.filter_cons_of_pos (by simpa using heq)]
        rfl
      cases n with
      | zero =>
        rw [hcons] at hs
        cases hs
      | succ n =>
        rw [hcons, List.range'_succ] at hs
        obtain ⟨hseq, htail⟩ := List.cons.inj hs
        have hstamp : (⟨m, .ofNat k⟩ : Stamp) = item.1 := by
          rw [← hseq, UInt32.ofNat_toNat, ← heq]
        have hnot : ¬ (⟨m, .ofNat k⟩ : Stamp) < item.1 := hstamp ▸ Stamp.lt_irrefl _
        have hnat : (UInt32.ofNat k).toNat = k := UInt32.toNat_ofNat_of_lt' hk
        rw [placeIn, if_neg hnot, if_pos hstamp, Stamp.next?]
        simp only [hnat]
        by_cases hnext : k + 1 < 2 ^ 32
        · have hsum : k + 1 + n = k + (n + 1) := by omega
          have hofNat : (⟨m, .ofNat k + 1⟩ : Stamp) = ⟨m, .ofNat (k + 1)⟩ := by
            rw [UInt32.ofNat_add]
            rfl
          simp only [if_pos hnext, hofNat, ih hrest hnext htail, hsum]
          simp only [List.takeWhile_cons, List.dropWhile_cons, heq, UInt64.le_refl, decide_true,
            if_true]
          split <;> rfl
        · rw [if_neg hnext, if_neg (by omega)]
    · -- The first later event, and with it all that follow, stay behind.
      have hlater : ∀ e ∈ item :: rest, e.1.micros ≠ m := fun e he h =>
        UInt64.lt_irrefl m (UInt64.lt_of_lt_of_le hgt (h ▸ micros_le_of_rising hr e he))
      rw [seqsAt_of_forall_ne hlater] at hs
      cases n with
      | succ n => cases hs
      | zero =>
        have hstop : ¬ item.1.micros ≤ m := UInt64.not_le.2 hgt
        have hbefore : (⟨m, .ofNat k⟩ : Stamp) < item.1 := .inl hgt
        rw [placeIn, if_pos hbefore, Nat.add_zero, if_pos hk]
        simp only [List.takeWhile_cons, List.dropWhile_cons, hstop, decide_false, Bool.false_eq_true,
          if_false, List.nil_append]

theorem lt_of_mem_dropWhile {m : UInt64} {items : List Event} (hr : Rising items) :
    ∀ e ∈ items.dropWhile (fun e => e.1.micros ≤ m), m < e.1.micros := by
  induction items with
  | nil => exact nofun
  | cons item rest ih =>
    rw [List.dropWhile_cons]
    split
    · exact ih hr.tail
    · rename_i hnot
      intro e he
      have hitem : m < item.1.micros := UInt64.not_le.1 fun h => hnot (decide_eq_true h)
      exact UInt64.lt_of_lt_of_le hitem (micros_le_of_rising hr e he)

/-- Among those with one key, what stands before none of them stands behind all of them. -/
theorem filter_insert {α : Type} (key : α → UInt64) {before after : List α} {x : α}
    (hx : ∀ a ∈ after, key a ≠ key x) (m : UInt64) :
    (before ++ x :: after).filter (fun a => key a = m) =
      (before ++ after).filter (fun a => key a = m) ++ [x].filter fun a => key a = m := by
  by_cases hm : key x = m
  · have hafter : after.filter (fun a => key a = m) = [] := by
      rw [List.filter_eq_nil_iff]
      exact fun a ha => by simpa [← hm] using hx a ha
    simp [hm, hafter]
  · simp [hm]

/-! ## What a queue gathers -/

section
variable {q q' other merged : Queue} {arrived more : List Arrival} {m : UInt64} {p : Payload} {t : Stamp}

theorem pairwise_arrivals (q : Queue) : q.arrivals.Pairwise fun a b => noLater a b := by
  rw [arrivals, List.pairwise_map]
  refine q.rising.imp fun {a b} h => decide_eq_true ?_
  rcases h with hlt | ⟨heq, -⟩
  · exact UInt64.le_of_lt hlt
  · exact UInt64.le_of_eq heq

theorem countAt_append (m : UInt64) (arrived more : List Arrival) :
    countAt m (arrived ++ more) = countAt m arrived + countAt m more := List.countP_append ..

theorem gathers_empty : Gathers [] empty where
  order := List.mergeSort_nil.symm
  seqs := fun _ => rfl

/-- A queue of a program's own is what arrives when it is sent. -/
theorem Gathers.arrivals (h : Gathers arrived q) : Gathers q.arrivals q where
  order := (List.mergeSort_of_pairwise (pairwise_arrivals q)).symm
  seqs := fun m => by
    rw [h.seqs, h.order, countAt, countAt, (List.mergeSort_perm arrived noLater).countP_eq]

/-- No microsecond of a queue has more events than there are sequence numbers. -/
theorem Gathers.countAt_le (h : Gathers arrived q) (m : UInt64) : countAt m arrived ≤ 2 ^ 32 := by
  apply Nat.le_of_not_lt
  intro hlt
  have hmem : 2 ^ 32 ∈ seqsAt m q.items := by
    rw [h.seqs, List.mem_range]
    exact hlt
  obtain ⟨e, -, he⟩ := List.mem_map.1 hmem
  have := e.1.seq.toNat_lt
  omega

/-- Pushing works exactly while the microsecond has a sequence number left. -/
theorem Gathers.pushAt_eq (h : Gathers arrived q) (m : UInt64) (p : Payload) :
    placeIn ⟨m, 0⟩ p q.items =
      if countAt m arrived < 2 ^ 32 then
        some (⟨m, .ofNat (countAt m arrived)⟩, q.items.takeWhile (fun e => e.1.micros ≤ m) ++
          (⟨m, .ofNat (countAt m arrived)⟩, p) :: q.items.dropWhile fun e => e.1.micros ≤ m)
      else none := by
  have hseqs := h.seqs m
  rw [List.range_eq_range'] at hseqs
  have hplace := placeIn_at (k := 0) q.rising (by decide) hseqs p
  rw [Nat.zero_add] at hplace
  exact hplace

theorem Gathers.exists_pushAt (h : Gathers arrived q) (hm : countAt m arrived < 2 ^ 32)
    (p : Payload) : ∃ t q', q.pushAt m p = .ok (t, q') := by
  have hplace := h.pushAt_eq m p
  rw [if_pos hm] at hplace
  exact ⟨_, _, place_eq_ok hplace⟩

/-- What is pushed has arrived last. -/
theorem Gathers.pushAt (h : Gathers arrived q) (hp : q.pushAt m p = .ok (t, q')) :
    Gathers (arrived ++ [(m, p)]) q' := by
  have hplace := exists_placeIn_of_place hp
  rw [h.pushAt_eq m p] at hplace
  split at hplace
  · rename_i hcount
    have hitems : _ = q'.items := congrArg Prod.snd (Option.some.inj hplace)
    have hsplit := List.takeWhile_append_dropWhile (p := fun e : Event => e.1.micros ≤ m)
      (l := q.items)
    have hafter : ∀ e ∈ q.items.dropWhile (fun e => e.1.micros ≤ m), e.1.micros ≠ m :=
      fun e he => (UInt64.ne_of_lt (lt_of_mem_dropWhile q.rising e he)).symm
    -- Within its microsecond the event is the last one, and no other microsecond is touched.
    constructor
    · refine eq_mergeSort (pairwise_arrivals q') fun m' => ?_
      have hold : q.arrivals.filter (fun a => a.1 = m') = arrived.filter fun a => a.1 = m' := by
        rw [h.order, filter_mergeSort]
      rw [List.filter_append, ← hold, Queue.arrivals, Queue.arrivals, ← hitems, List.map_append,
        List.map_cons, filter_insert Prod.fst (fun a ha => ?_), ← List.map_append, hsplit]
      obtain ⟨e, he, rfl⟩ := List.mem_map.1 ha
      exact hafter e he
    · intro m'
      rw [← hitems, seqsAt, filter_insert (fun e : Event => e.1.micros) hafter, hsplit,
        List.map_append]
      show seqsAt m' q.items ++ _ = _
      rw [h.seqs, countAt_append]
      by_cases hm : m = m'
      · subst hm
        have hone : countAt m [(m, p)] = 1 := by simp [countAt]
        simp only [List.filter_cons, List.filter_nil, List.map_cons, List.map_nil, decide_true, if_true]
        rw [UInt32.toNat_ofNat_of_lt' hcount, hone, List.range_succ]
      · have hnone : countAt m' [(m, p)] = 0 := by simp [countAt, hm]
        simp only [List.filter_cons, List.filter_nil, List.map_nil, hm, decide_false,
          Bool.false_eq_true, if_false, List.append_nil, hnone, Nat.add_zero]
  · cases hplace

/-- Arrivals placed one after the other, as long as no microsecond gets too many of them. -/
theorem Gathers.exists_placeAll (h : Gathers arrived q)
    (hc : ∀ m, countAt m (arrived ++ more) ≤ 2 ^ 32) :
    ∃ merged, q.placeAll (more.map fun a => (⟨a.1, 0⟩, a.2)) = .ok merged ∧
      Gathers (arrived ++ more) merged := by
  induction more generalizing arrived q with
  | nil => exact ⟨q, rfl, by rwa [List.append_nil]⟩
  | cons a more ih =>
    obtain ⟨m, p⟩ := a
    have hsplit : arrived ++ (m, p) :: more = (arrived ++ [(m, p)]) ++ more := by simp
    have hm : countAt m arrived < 2 ^ 32 := by
      have hone : countAt m ((m, p) :: more) = countAt m more + 1 :=
        List.countP_cons_of_pos (decide_eq_true rfl)
      have := hc m
      rw [countAt_append, hone] at this
      omega
    obtain ⟨t, q', hpush⟩ := h.exists_pushAt hm p
    obtain ⟨merged, hplace, hmerged⟩ := ih (h.pushAt hpush) (by rwa [← hsplit])
    refine ⟨merged, ?_, hsplit ▸ hmerged⟩
    rw [List.map_cons, placeAll]
    rw [Queue.pushAt] at hpush
    simp only [hpush, hplace]

/-- There is a queue of what arrived, as long as no microsecond gets too many arrivals. -/
theorem exists_gathers (hc : ∀ m, countAt m arrived ≤ 2 ^ 32) :
    ∃ q, empty.placeAll (arrived.map fun a => (⟨a.1, 0⟩, a.2)) = .ok q ∧ Gathers arrived q :=
  gathers_empty.exists_placeAll hc

/-- Merging a queue: its events arrive in their order. -/
theorem Gathers.exists_merge (h : Gathers arrived q)
    (hc : ∀ m, countAt m (arrived ++ other.arrivals) ≤ 2 ^ 32) :
    ∃ merged, q.merge other = .ok merged ∧ Gathers (arrived ++ other.arrivals) merged := by
  obtain ⟨merged, hplace, hmerged⟩ := h.exists_placeAll hc
  refine ⟨merged, ?_, hmerged⟩
  rw [Queue.arrivals, List.map_map] at hplace
  exact hplace

/-- Events are told by their microseconds, their payloads and the numbers within each microsecond. -/
theorem items_eq {items items' : List Event}
    (ha : items.map (fun e => (e.1.micros, e.2)) = items'.map fun e => (e.1.micros, e.2))
    (hs : ∀ m, seqsAt m items = seqsAt m items') : items = items' := by
  induction items generalizing items' with
  | nil => exact (List.map_eq_nil_iff.1 ha.symm).symm
  | cons e rest ih =>
    cases items' with
    | nil => cases ha
    | cons e' rest' =>
      obtain ⟨⟨m, s⟩, p⟩ := e
      obtain ⟨⟨m', s'⟩, p'⟩ := e'
      obtain ⟨hhead, htail⟩ := List.cons.inj ha
      cases hhead
      have hseq := hs m
      simp only [seqsAt, List.filter_cons, decide_true, if_true, List.map_cons] at hseq
      cases UInt32.toNat_inj.1 (List.cons.inj hseq).1
      refine congrArg (_ :: ·) (ih htail fun m' => ?_)
      have := hs m'
      simp only [seqsAt, List.filter_cons] at this
      split at this
      · exact (List.cons.inj this).2
      · exact this

/-- There is one queue of what arrived. -/
theorem Gathers.unique (h : Gathers arrived q) (h' : Gathers arrived q') : q = q' :=
  Queue.ext (items_eq (h.order.trans h'.order.symm) fun m => (h.seqs m).trans (h'.seqs m).symm)

/-- Placing what arrived, one after the other, gives that queue. -/
theorem Gathers.placeAll_eq (h : Gathers arrived q) :
    empty.placeAll (arrived.map fun a => (⟨a.1, 0⟩, a.2)) = .ok q := by
  obtain ⟨q', hplace, hq'⟩ := exists_gathers h.countAt_le
  rw [hplace, h.unique hq']

end

/-! ## Texts in place of payloads -/

/-- An arrival with the text of its payload in place of the payload. -/
def Arrival.written (a : Arrival) : Arrival := (a.1, .written a.2.text)

@[simp] theorem arrivals_written (q : Queue) : q.written.arrivals = q.arrivals.map Arrival.written := by
  rw [arrivals, arrivals, written, List.map_map, List.map_map]
  rfl

@[simp] theorem map_written_map_written (arrived : List Arrival) :
    (arrived.map Arrival.written).map Arrival.written = arrived.map Arrival.written := by
  rw [List.map_map]
  rfl

@[simp] theorem countAt_map_written (m : UInt64) (arrived : List Arrival) :
    countAt m (arrived.map Arrival.written) = countAt m arrived := by
  rw [countAt, List.countP_map]
  rfl

theorem Gathers.written {arrived : List Arrival} {q : Queue} (h : Gathers arrived q) :
    Gathers (arrived.map Arrival.written) q.written where
  order := by
    rw [arrivals_written, h.order]
    exact List.map_mergeSort fun a _ b _ => rfl
  seqs := fun m => by
    rw [countAt_map_written, ← h.seqs m, seqsAt, seqsAt, Queue.written, List.filter_map, List.map_map]
    rfl

end Lockstep.Queue
