import Mathlib.Data.List.Perm.Subperm
import Lockstep.Proofs.Queue.Merge
import Lockstep.Queue.Operation

/- Which of two events of a microsecond stands in front.

   1. An event that is pushed takes the least sequence number that is free at its microsecond, if there
      is one (`isFirstFree_of_pushAt`, `exists_pushAt_iff`), and keeps it. It leaves by being popped as
      the first event (`eq_pop_of_not_mem_perform`).
   2. So as many events stand in front of it as its number says when it is pushed, and as long as every
      smaller number is in use (`inFront_eq_iff`); later there may be fewer.
   3. When a second event is pushed, it finds a smaller number free exactly if there are fewer. Then it
      stands in front of the first (`stands_in_front_iff`), although it came later
      (`arrival_order_fails`). -/
namespace Lockstep.Queue

/-- An event is there before the operations and after each of them. -/
def Stays (e : Event) (q : Queue) (ops : List Operation) : Prop :=
  ∀ done, done <+: ops → e ∈ (q.after done).items

/-- How many events of the same microsecond stand in front of a stamp. -/
def inFront (s : Stamp) (q : Queue) : Nat := (seqsAt s.micros q.items).countP (· < s.seq.toNat)

/-- A stamp is the first one of a microsecond that is not in use. -/
structure IsFirstFree (m : UInt64) (q : Queue) (s : Stamp) : Prop where
  micros : s.micros = m
  free : s.seq.toNat ∉ seqsAt m q.items
  used : ∀ k < s.seq.toNat, k ∈ seqsAt m q.items

section
variable {q q' q₁ q₂ : Queue} {m : UInt64} {p p' : Payload} {s t : Stamp} {e e' : Event}
  {items placed : List Event} {op : Operation} {ops between later : List Operation} {k : Nat}

@[simp] theorem stays_nil : Stays e q [] ↔ e ∈ q.items := by
  simp [Stays]

@[simp] theorem stays_cons : Stays e q (op :: ops) ↔ e ∈ q.items ∧ Stays e (q.perform op).2 ops := by
  simp only [Stays, List.prefix_cons_iff, forall_eq_or_imp, after_nil]
  refine and_congr_right fun _ => ⟨fun h done hd => h _ ⟨done, rfl, hd⟩, ?_⟩
  rintro h _ ⟨done, rfl, hd⟩
  exact h done hd

/-! ## Sequence numbers in use -/

theorem mem_seqsAt : k ∈ seqsAt m items ↔ ∃ e ∈ items, e.1.micros = m ∧ e.1.seq.toNat = k := by
  simp only [seqsAt, List.mem_map, List.mem_filter, decide_eq_true_eq, and_assoc]

theorem perm_seqsAt {items' : List Event} (h : items.Perm items') (m : UInt64) :
    (seqsAt m items).Perm (seqsAt m items') := (h.filter _).map _

theorem seqsAt_cons_of_eq (hm : e.1.micros = m) (items : List Event) :
    seqsAt m (e :: items) = e.1.seq.toNat :: seqsAt m items := by
  rw [seqsAt, List.filter_cons_of_pos (by simpa using hm)]
  rfl

theorem seqsAt_mono {items' : List Event} (h : ∀ e ∈ items, e.1.micros = m → e ∈ items')
    (hk : k ∈ seqsAt m items) : k ∈ seqsAt m items' := by
  obtain ⟨e, he, hm, hseq⟩ := mem_seqsAt.1 hk
  exact mem_seqsAt.2 ⟨e, h e he hm, hm, hseq⟩

/-- The numbers of a microsecond rise with the events. -/
theorem nodup_seqsAt (q : Queue) (m : UInt64) : (seqsAt m q.items).Nodup := by
  rw [seqsAt, List.Nodup, List.pairwise_map]
  refine (q.rising.filter _).imp_of_mem fun {a b} ha hb hlt => ?_
  have ham := of_decide_eq_true (List.mem_filter.1 ha).2
  have hbm := of_decide_eq_true (List.mem_filter.1 hb).2
  rcases hlt with hlt | ⟨-, hlt⟩
  · rw [ham, hbm] at hlt
    exact absurd hlt (UInt64.lt_irrefl m)
  · exact Nat.ne_of_lt (UInt32.lt_iff_toNat_lt.1 hlt)

theorem front_subperm_range (s : Stamp) (q : Queue) :
    List.Subperm ((seqsAt s.micros q.items).filter (· < s.seq.toNat)) (List.range s.seq.toNat) := by
  refine List.Nodup.subperm ((nodup_seqsAt q s.micros).filter _) fun k hk => ?_
  exact List.mem_range.2 (of_decide_eq_true (List.mem_filter.1 hk).2)

/-- No more events stand in front than there are smaller numbers. -/
theorem inFront_le (s : Stamp) (q : Queue) : inFront s q ≤ s.seq.toNat := by
  rw [inFront, List.countP_eq_length_filter]
  simpa using (front_subperm_range s q).length_le

/-- All smaller numbers are in use exactly if as many events stand in front. -/
theorem inFront_eq_iff :
    inFront s q = s.seq.toNat ↔ ∀ k < s.seq.toNat, k ∈ seqsAt s.micros q.items := by
  rw [inFront, List.countP_eq_length_filter]
  constructor
  · intro heq k hk
    have hlength := Nat.le_of_eq (List.length_range.trans heq.symm)
    have hperm := (front_subperm_range s q).perm_of_length_le hlength
    exact (List.mem_filter.1 (hperm.symm.subset (List.mem_range.2 hk))).1
  · intro hall
    have hsub : List.Subperm (List.range s.seq.toNat)
        ((seqsAt s.micros q.items).filter (· < s.seq.toNat)) :=
      List.nodup_range.subperm fun k hk =>
        List.mem_filter.2 ⟨hall k (List.mem_range.1 hk), decide_eq_true (List.mem_range.1 hk)⟩
    have hge := hsub.length_le
    have hle := (front_subperm_range s q).length_le
    rw [List.length_range] at hge hle
    omega

/-! ## What is pushed -/

theorem micros_of_placeIn (h : placeIn s p items = some (t, placed)) : t.micros = s.micros := by
  induction items generalizing s placed with
  | nil =>
    cases h
    rfl
  | cons item rest ih =>
    unfold placeIn at h
    split at h
    · cases h
      rfl
    · split at h
      · split at h
        · cases h
        · rename_i s' hnext
          obtain ⟨⟨t', placed'⟩, hplaced, he⟩ := Option.map_eq_some_iff.1 h
          cases he
          exact (ih hplaced).trans (Stamp.micros_of_next?_eq_some hnext)
      · obtain ⟨⟨t', placed'⟩, hplaced, he⟩ := Option.map_eq_some_iff.1 h
        cases he
        exact ih hplaced

/-- The sequence numbers that placing passes over are in use: those up to the one it takes, or up to the
    last one if it takes none. -/
theorem mem_seqsAt_of_placeIn {bound : Nat} (hbound : bound ≤ 2 ^ 32)
    (h : ∀ t placed, placeIn s p items = some (t, placed) → bound ≤ t.seq.toNat)
    (hle : s.seq.toNat ≤ k) (hlt : k < bound) : k ∈ seqsAt s.micros items := by
  induction items generalizing s with
  | nil => exact absurd (h s _ rfl) (by omega)
  | cons item rest ih =>
    have hrest : k ∈ seqsAt s.micros rest → k ∈ seqsAt s.micros (item :: rest) :=
      fun hk => seqsAt_mono (fun e he _ => List.mem_cons_of_mem item he) hk
    by_cases hbefore : s < item.1
    · have hplace : placeIn s p (item :: rest) = some (s, (s, p) :: item :: rest) := by
        rw [placeIn, if_pos hbefore]
      have := h s _ hplace
      omega
    · by_cases hsame : s = item.1
      · -- The number of the event in the way is in use, and the search goes on behind it.
        rcases Nat.eq_or_lt_of_le hle with rfl | hgt
        · exact mem_seqsAt.2 ⟨item, List.mem_cons_self, by rw [hsame], by rw [hsame]⟩
        · obtain ⟨s', hnext⟩ : ∃ s', s.next? = some s' := by
            rw [Stamp.next?, if_pos (by omega)]
            exact ⟨_, rfl⟩
          have hmicros := Stamp.micros_of_next?_eq_some hnext
          have hseq := Stamp.seq_of_next?_eq_some hnext
          refine hrest (hmicros ▸ ih (fun t placed hplaced => ?_) (by omega))
          refine h t (item :: placed) ?_
          rw [placeIn, if_neg hbefore, if_pos hsame, hnext]
          simp only [hplaced, Option.map_some]
      · refine hrest (ih (fun t placed hplaced => ?_) hle)
        refine h t (item :: placed) ?_
        rw [placeIn, if_neg hbefore, if_neg hsame, hplaced]
        rfl

theorem perm_of_pushAt (h : q.pushAt m p = .ok (s, q')) : q'.items.Perm ((s, p) :: q.items) :=
  perm_of_placeIn (exists_placeIn_of_place h)

/-- An event that is pushed takes the first free stamp of its microsecond. -/
theorem isFirstFree_of_pushAt (h : q.pushAt m p = .ok (s, q')) : IsFirstFree m q s := by
  have hplace := exists_placeIn_of_place h
  have hmicros : s.micros = m := micros_of_placeIn hplace
  have hused : ∀ k < s.seq.toNat, k ∈ seqsAt m q.items := fun k hk =>
    mem_seqsAt_of_placeIn (Nat.le_of_lt s.seq.toNat_lt) (fun t placed ht => by
      rw [hplace] at ht
      cases ht
      exact Nat.le_refl _) (Nat.zero_le k) hk
  refine ⟨hmicros, fun hmem => ?_, hused⟩
  -- Were the number in use before, it would be there twice now.
  have hperm := perm_seqsAt (perm_of_pushAt h) m
  rw [seqsAt_cons_of_eq hmicros] at hperm
  exact (List.nodup_cons.1 (hperm.nodup_iff.1 (nodup_seqsAt q' m))).1 hmem

/-- Pushing works exactly as long as the microsecond has a sequence number that is free. -/
theorem exists_pushAt_iff :
    (∃ s q', q.pushAt m p = .ok (s, q')) ↔ ∃ k < 2 ^ 32, k ∉ seqsAt m q.items := by
  constructor
  · rintro ⟨s, q', h⟩
    exact ⟨s.seq.toNat, s.seq.toNat_lt, (isFirstFree_of_pushAt h).free⟩
  · rintro ⟨k, hk, hfree⟩
    cases hplace : placeIn ⟨m, 0⟩ p q.items with
    | some placed => exact ⟨_, _, place_eq_ok hplace⟩
    | none =>
      have hnone : ∀ t placed, placeIn ⟨m, 0⟩ p q.items = some (t, placed) → 2 ^ 32 ≤ t.seq.toNat :=
        fun t placed h => by
          rw [hplace] at h
          cases h
      exact absurd (mem_seqsAt_of_placeIn (Nat.le_refl _) hnone (Nat.zero_le k) hk) hfree

/-- As many events as its number says stand in front of one that is pushed. -/
theorem inFront_of_pushAt (h : q.pushAt m p = .ok (s, q')) : inFront s q' = s.seq.toNat := by
  have hfree := isFirstFree_of_pushAt h
  refine inFront_eq_iff.2 fun k hk => ?_
  rw [hfree.micros]
  exact seqsAt_mono (fun e he _ => (perm_of_pushAt h).symm.subset (List.mem_cons_of_mem _ he))
    (hfree.used k hk)

/-- A second event finds a smaller number free exactly if there are fewer events in front of the
    first. -/
theorem IsFirstFree.lt_iff (ht : IsFirstFree s.micros q t) (hs : (s, p) ∈ q.items) :
    (s < t ↔ inFront s q = s.seq.toNat) ∧ (t < s ↔ inFront s q < s.seq.toNat) := by
  have hne : t.seq.toNat ≠ s.seq.toNat := fun h => ht.free (mem_seqsAt.2 ⟨_, hs, rfl, h.symm⟩)
  have hst : s < t ↔ s.seq.toNat < t.seq.toNat := by
    simp [Stamp.lt_def, ht.micros, UInt32.lt_iff_toNat_lt]
  have hts : t < s ↔ t.seq.toNat < s.seq.toNat := by
    simp [Stamp.lt_def, ht.micros, UInt32.lt_iff_toNat_lt]
  have hall : inFront s q = s.seq.toNat ↔ s.seq.toNat < t.seq.toNat := by
    rw [inFront_eq_iff]
    refine ⟨fun hused => ?_, fun hlt k hk => ht.used k (Nat.lt_trans hk hlt)⟩
    rcases Nat.lt_or_gt_of_ne hne with hlt | hgt
    · exact absurd (hused _ hlt) ht.free
    · exact hgt
  have hle := inFront_le s q
  exact ⟨hst.trans hall.symm, hts.trans (by omega)⟩

/-! ## Where events stand, and how they leave -/

/-- Of two events of a queue, the one with the earlier stamp stands in front. -/
theorem pair_sublist_iff (he : e ∈ q.items) (he' : e' ∈ q.items) :
    [e, e'].Sublist q.items ↔ e.1 < e'.1 := by
  constructor
  · intro hsub
    have hpair := q.rising.sublist hsub
    exact (List.pairwise_cons.1 hpair).1 e' List.mem_cons_self
  · intro hlt
    obtain ⟨front, back, hitems⟩ := List.append_of_mem he
    have hr := q.rising
    rw [hitems, Rising, List.pairwise_append] at hr
    rw [hitems, List.mem_append, List.mem_cons] at he'
    rcases he' with hfront | rfl | hback
    · exact absurd (Stamp.lt_trans hlt (hr.2.2 e' hfront e List.mem_cons_self)) (Stamp.lt_irrefl _)
    · exact absurd hlt (Stamp.lt_irrefl _)
    · rw [hitems]
      exact (List.Sublist.cons_cons e (List.singleton_sublist.2 hback)).trans
        (List.sublist_append_right _ _)

/-- An event leaves by being popped, as the first one. -/
theorem eq_pop_of_not_mem_perform (he : e ∈ q.items) (hgone : e ∉ (q.perform op).2.items) :
    op = .pop ∧ q.first? = some e := by
  have hkept : ∀ {outcome : Except Error Queue}, (∀ q', outcome = .ok q' → e ∈ q'.items) →
      e ∈ (q.orUnchanged outcome).2.items := fun {outcome} h => by
    cases outcome with
    | error _ => exact he
    | ok q' => exact h q' rfl
  cases op with
  | push micros p =>
    refine absurd (hkept fun q' hpush => ?_) hgone
    cases hplace : q.pushAt micros p with
    | error _ =>
      rw [hplace] at hpush
      cases hpush
    | ok placed =>
      rw [hplace] at hpush
      cases hpush
      exact (perm_of_pushAt hplace).symm.subset (List.mem_cons_of_mem _ he)
  | merge other => exact absurd (hkept fun q' hmerge => mem_of_placeAll hmerge he) hgone
  | mergeText text =>
    refine absurd (hkept fun q' hmerge => ?_) hgone
    unfold mergeText at hmerge
    split at hmerge
    · cases hmerge
    · exact mem_of_placeAll hmerge he
  | pop =>
    refine ⟨rfl, ?_⟩
    cases hitems : q.items with
    | nil =>
      rw [hitems] at he
      cases he
    | cons first rest =>
      rw [hitems] at he
      rw [first?, hitems, List.head?_cons]
      rcases List.mem_cons.1 he with rfl | hrest
      · rfl
      · exact absurd (show e ∈ q.items.tail by rwa [hitems]) hgone

/-- The first event stands in front of all others. -/
theorem pair_sublist_of_first (hfirst : q.first? = some e) (he' : e' ∈ q.items) (hne : e' ≠ e) :
    [e, e'].Sublist q.items := by
  obtain ⟨rest, hitems⟩ := List.head?_eq_some_iff.1 hfirst
  rw [hitems] at he' ⊢
  have hrest := (List.mem_cons.1 he').resolve_left hne
  exact List.Sublist.cons_cons e (List.singleton_sublist.2 hrest)

/-- Where no event of a microsecond is popped, none leaves. -/
theorem mem_after_of_not_popped (he : e ∈ q.items)
    (hpop : ∀ done rest, between = done ++ .pop :: rest →
      ∀ first, (q.after done).first? = some first → first.1.micros ≠ e.1.micros) :
    e ∈ (q.after between).items := by
  induction between generalizing q with
  | nil => exact he
  | cons op ops ih =>
    have hstep : e ∈ (q.perform op).2.items := by
      by_contra hgone
      obtain ⟨rfl, hfirst⟩ := eq_pop_of_not_mem_perform he hgone
      exact hpop [] ops rfl e hfirst rfl
    exact ih hstep fun done rest h => hpop (op :: done) rest (by rw [h]; rfl)

/-- Of two events pushed at one microsecond, the one pushed first stands in front of the other, for as
    long as both are there, and leaves first, exactly if as many events of the microsecond stand in front
    of it when the other is pushed as when it was pushed itself; so it does if none of the microsecond
    was popped between. Otherwise the other takes a stamp that was left, stands in front and leaves
    first. -/
theorem stands_in_front_iff (hs : q.pushAt m p = .ok (s, q₁)) (hbetween : Stays (s, p) q₁ between)
    (ht : (q₁.after between).pushAt m p' = .ok (t, q₂)) (hs' : Stays (s, p) q₂ later)
    (ht' : Stays (t, p') q₂ later) :
    (IsFirstFree m q s ∧ IsFirstFree m (q₁.after between) t) ∧
      ([(s, p), (t, p')].Sublist (q₂.after later).items ↔
        inFront s (q₁.after between) = inFront s q₁) ∧
      ([(t, p'), (s, p)].Sublist (q₂.after later).items ↔
        inFront s (q₁.after between) < inFront s q₁) ∧
      (∀ op, (s, p) ∉ ((q₂.after later).perform op).2.items →
        inFront s (q₁.after between) = inFront s q₁) ∧
      (∀ op, (t, p') ∉ ((q₂.after later).perform op).2.items →
        inFront s (q₁.after between) < inFront s q₁) ∧
      ((∀ done rest, between = done ++ .pop :: rest →
        ∀ first, (q₁.after done).first? = some first → first.1.micros ≠ m) →
        [(s, p), (t, p')].Sublist (q₂.after later).items) := by
  have hfree := isFirstFree_of_pushAt hs
  have hfree' := isFirstFree_of_pushAt ht
  have hcount := inFront_of_pushAt hs
  have hthere := hbetween between List.prefix_rfl
  have hin := hs' later List.prefix_rfl
  have hin' := ht' later List.prefix_rfl
  obtain ⟨hbefore, hbehind⟩ := (hfree.micros ▸ hfree' : IsFirstFree s.micros _ t).lt_iff hthere
  rw [← hcount] at hbefore hbehind
  -- The stamps differ, since the first is in use when the second is taken.
  have hne : t ≠ s := fun h =>
    hfree'.free (mem_seqsAt.2 ⟨_, hthere, hfree.micros, congrArg (·.seq.toNat) h.symm⟩)
  have hfront := (pair_sublist_iff hin hin').trans hbefore
  have hback := (pair_sublist_iff hin' hin).trans hbehind
  refine ⟨⟨hfree, hfree'⟩, hfront, hback, fun op hgone => ?_, fun op hgone => ?_, fun hpop => ?_⟩
  · have hfirst := (eq_pop_of_not_mem_perform hin hgone).2
    exact hfront.1 (pair_sublist_of_first hfirst hin' fun h => hne (congrArg Prod.fst h))
  · have hfirst := (eq_pop_of_not_mem_perform hin' hgone).2
    exact hback.1 (pair_sublist_of_first hfirst hin fun h => hne (congrArg Prod.fst h.symm))
  · refine hfront.2 (hcount ▸ inFront_eq_iff.2 fun k hk => ?_)
    have hused := inFront_eq_iff.1 hcount k hk
    refine seqsAt_mono (fun e he hm => mem_after_of_not_popped he ?_) hused
    rw [hm, hfree.micros]
    exact hpop

/-- Two events of a microsecond. -/
def pair : Queue := empty.after [.push 5 (.written "a"), .push 5 (.written "b")]

/-- The first of the pair is popped before a third event is pushed, and in its place another is pushed or
    not. -/
theorem stands_in_front_pair :
    ∃ q q' : Queue, (empty.after [.push 5 (.written "a")]).pushAt 5 (.written "b") =
        .ok (⟨5, 1⟩, pair) ∧
      (pair.after [.pop]).pushAt 5 (.written "c") = .ok (⟨5, 0⟩, q) ∧
      [(⟨5, 0⟩, .written "c"), (⟨5, 1⟩, .written "b")].Sublist q.items ∧
      (pair.after [.pop, .push 5 (.written "x")]).pushAt 5 (.written "c") = .ok (⟨5, 2⟩, q') ∧
      [(⟨5, 1⟩, .written "b"), (⟨5, 2⟩, .written "c")].Sublist (q'.after [.pop]).items := by
  have hb : (empty.after [.push 5 (.written "a")]).pushAt 5 (.written "b") = .ok (⟨5, 1⟩, pair) := rfl
  have hthere : (⟨5, 1⟩, .written "b") ∈ pair.items := .tail _ (.head _)
  have hpopped : (⟨5, 1⟩, .written "b") ∈ (pair.after [.pop]).items := .head _
  have hrefilled : (⟨5, 1⟩, .written "b") ∈ (pair.after [.pop, .push 5 (.written "x")]).items :=
    .tail _ (.head _)
  refine ⟨pair.after [.pop, .push 5 (.written "c")],
    pair.after [.pop, .push 5 (.written "x"), .push 5 (.written "c")], hb, rfl, ?_, rfl, ?_⟩
  · have hfewer : inFront ⟨5, 1⟩ (pair.after [.pop]) < inFront ⟨5, 1⟩ pair := by decide
    have hlater : Stays (⟨5, 1⟩, .written "b") (pair.after [.pop, .push 5 (.written "c")]) [] :=
      stays_nil.2 (.tail _ (.head _))
    have hlater' : Stays (⟨5, 0⟩, .written "c") (pair.after [.pop, .push 5 (.written "c")]) [] :=
      stays_nil.2 (.head _)
    exact (stands_in_front_iff hb (stays_cons.2 ⟨hthere, stays_nil.2 hpopped⟩) rfl hlater
      hlater').2.2.1.2 hfewer
  · have hsame : inFront ⟨5, 1⟩ (pair.after [.pop, .push 5 (.written "x")]) = inFront ⟨5, 1⟩ pair := by
      decide
    have hlater : Stays (⟨5, 1⟩, .written "b")
        (pair.after [.pop, .push 5 (.written "x"), .push 5 (.written "c")]) [.pop] :=
      stays_cons.2 ⟨.tail _ (.head _), stays_nil.2 (.head _)⟩
    have hlater' : Stays (⟨5, 2⟩, .written "c")
        (pair.after [.pop, .push 5 (.written "x"), .push 5 (.written "c")]) [.pop] :=
      stays_cons.2 ⟨.tail _ (.tail _ (.head _)), stays_nil.2 (.tail _ (.head _))⟩
    exact (stands_in_front_iff hb (stays_cons.2 ⟨hthere, stays_cons.2 ⟨hpopped,
      stays_nil.2 hrefilled⟩⟩) rfl hlater hlater').2.1.2 hsame

/-- What is pushed later may stand in front of what was pushed at the same microsecond before it. -/
theorem arrival_order_fails :
    ¬ ∀ (start between : List Operation) (m : UInt64) (p p' : Payload) (s t : Stamp) (q₁ q₂ : Queue),
      (∀ op ∈ start ++ between, op = .pop ∨ ∃ micros p, op = .push micros p) →
      (empty.after start).pushAt m p = .ok (s, q₁) → Stays (s, p) q₁ between →
      (q₁.after between).pushAt m p' = .ok (t, q₂) → [(s, p), (t, p')].Sublist q₂.items := by
  intro h
  have hstays : Stays (⟨5, 1⟩, .written "b") pair [.pop] :=
    stays_cons.2 ⟨.tail _ (.head _), stays_nil.2 (.head _)⟩
  have hsub := h [.push 5 (.written "a")] [.pop] 5 (.written "b") (.written "c") ⟨5, 1⟩ ⟨5, 0⟩ pair
    (pair.after [.pop, .push 5 (.written "c")]) (by simp) rfl hstays rfl
  exact absurd (hsub.map Prod.fst) (by decide)

end
end Lockstep.Queue
