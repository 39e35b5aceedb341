import Lockstep.Queue.Basic

/- Where events are placed.

   1. A stamp above all others goes to the end (`placeIn_of_forall_lt`), so events whose stamps rise
      are placed as they are (`placeAll_of_rising`).
   2. Whatever the stamps, placing loses no event and adds none but the one placed
      (`perm_of_placeIn`, `mem_of_placeAll`, `perm_of_placeAll`). -/
namespace Lockstep.Queue

theorem place_eq_ok {q : Queue} {s t : Stamp} {p : Payload} {items : List Event}
    (h : placeIn s p q.items = some (t, items)) :
    q.place s p = .ok (t, ⟨items, rising_placeIn h q.rising⟩) := by
  unfold place
  split
  · rename_i t' items' h'
    rw [h] at h'
    cases h'
    rfl
  · rename_i h'
    rw [h] at h'
    cases h'

theorem exists_placeIn_of_place {q q' : Queue} {s t : Stamp} {p : Payload}
    (h : q.place s p = .ok (t, q')) : placeIn s p q.items = some (t, q'.items) := by
  unfold place at h
  split at h
  · rename_i t' items' h'
    cases h
    exact h'
  · cases h

theorem placeIn_of_forall_lt {s : Stamp} {p : Payload} {items : List Event}
    (h : ∀ item ∈ items, item.1 < s) : placeIn s p items = some (s, items ++ [(s, p)]) := by
  induction items with
  | nil => rfl
  | cons item rest ih =>
    have hlt := h item List.mem_cons_self
    have hnot : ¬ s < item.1 := fun hs => Stamp.lt_irrefl s (Stamp.lt_trans hs hlt)
    have hne : s ≠ item.1 := fun hs => Stamp.lt_irrefl s (by rwa [← hs] at hlt)
    rw [placeIn, if_neg hnot, if_neg hne, ih fun i hi => h i (List.mem_cons_of_mem item hi)]
    rfl

/-- Events behind those of a queue are placed as they are. -/
theorem placeAll_of_rising {q : Queue} {items : List Event} (h : Rising (q.items ++ items)) :
    q.placeAll items = .ok ⟨q.items ++ items, h⟩ := by
  induction items generalizing q with
  | nil =>
    rw [placeAll]
    exact congrArg Except.ok (Queue.ext (List.append_nil q.items).symm)
  | cons item rest ih =>
    obtain ⟨s, p⟩ := item
    have hbefore : ∀ i ∈ q.items, i.1 < s := fun i hi =>
      (List.pairwise_append.1 h).2.2 i hi (s, p) List.mem_cons_self
    have hplace := place_eq_ok (placeIn_of_forall_lt (p := p) hbefore)
    have hrest : Rising ((q.items ++ [(s, p)]) ++ rest) := by
      rw [List.append_assoc]
      exact h
    simp only [placeAll, hplace]
    rw [ih hrest]
    exact congrArg Except.ok (Queue.ext (List.append_assoc ..))

/-- Placing adds one event. -/
theorem perm_of_placeIn {s t : Stamp} {p : Payload} {items placed : List Event}
    (h : placeIn s p items = some (t, placed)) : placed.Perm ((t, p) :: items) := by
  induction items generalizing s placed with
  | nil =>
    cases h
    exact .refl _
  | cons item rest ih =>
    -- Behind the first event, the rest is a placement of its own.
    have hbehind : ∀ {s' : Stamp}, (placeIn s' p rest).map (fun placed => (placed.1, item :: placed.2)) =
        some (t, placed) → placed.Perm ((t, p) :: item :: rest) := by
      intro s' hmap
      obtain ⟨⟨t', placed'⟩, hplaced, he⟩ := Option.map_eq_some_iff.1 hmap
      cases he
      exact ((ih hplaced).cons item).trans (.swap ..)
    unfold placeIn at h
    split at h
    · cases h
      exact .refl _
    · split at h
      · split at h
        · cases h
        · exact hbehind h
      · exact hbehind h

/-- Placing more events moves none of those that are there. -/
theorem mem_of_placeAll {q q' : Queue} {items : List Event} (h : q.placeAll items = .ok q')
    {item : Event} (hitem : item ∈ q.items) : item ∈ q'.items := by
  induction items generalizing q with
  | nil =>
    cases h
    exact hitem
  | cons first rest ih =>
    obtain ⟨s, p⟩ := first
    rw [placeAll] at h
    split at h
    · cases h
    · rename_i t q₁ hplace
      have hperm := perm_of_placeIn (exists_placeIn_of_place hplace)
      exact ih h (hperm.symm.subset (List.mem_cons_of_mem _ hitem))

/-- What a queue holds after events were placed: its own payloads and theirs. -/
theorem perm_of_placeAll {q q' : Queue} {items : List Event} (h : q.placeAll items = .ok q') :
    (q'.items.map Prod.snd).Perm (q.items.map Prod.snd ++ items.map Prod.snd) := by
  induction items generalizing q with
  | nil =>
    cases h
    simp
  | cons item rest ih =>
    obtain ⟨s, p⟩ := item
    simp only [placeAll] at h
    split at h
    · cases h
    · rename_i t q₁ hplace
      have hone := (perm_of_placeIn (exists_placeIn_of_place hplace)).map Prod.snd
      refine (ih h).trans ?_
      simp only [List.map_cons] at hone ⊢
      exact (hone.append_right _).trans List.perm_middle.symm

end Lockstep.Queue
