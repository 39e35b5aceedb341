import Lockstep.Proofs.Queue.Standing

/- Which stamps the items of a text get.

   1. An item asks for the stamp that is written in it. If that is in use, it gets the first one after it
      that is free, within the microsecond (`IsFirstFrom`); `Crowded` says that there is none. Either is
      the case, whatever is in use (`placeIn_cases`).
   2. So events that are placed one after the other settle on stamps (`Settles`), up to the first one that
      finds its microsecond crowded (`placeAll_cases`). That needs as many events before it as there are
      numbers from its own on (`Crowded.le_length`).
   3. For the items of a text this is `parse_settles`. Where one is crowded out, there is no queue
      (`parse_crowded_out`). -/
namespace Lockstep.Queue
open Text Markup

/-- A number of a microsecond that a stamp uses. -/
def Uses (taken : List Stamp) (m : UInt64) (k : Nat) : Prop :=
  ∃ u ∈ taken, u.micros = m ∧ u.seq.toNat = k

/-- The first stamp from a given one on that is not in use, within the microsecond. -/
structure IsFirstFrom (s : Stamp) (taken : List Stamp) (t : Stamp) : Prop where
  micros : t.micros = s.micros
  le : s.seq.toNat ≤ t.seq.toNat
  free : t ∉ taken
  used : ∀ k, s.seq.toNat ≤ k → k < t.seq.toNat → Uses taken s.micros k

/-- All stamps from a given one on are in use, up to the last of the microsecond. -/
def Crowded (s : Stamp) (taken : List Stamp) : Prop :=
  ∀ k, s.seq.toNat ≤ k → k < 2 ^ 32 → Uses taken s.micros k

/-- The stamps that are got for written ones, each the first one from the written one on that is used
    neither by `taken` nor by those got before. -/
inductive Settles : List Stamp → List Stamp → List Stamp → Prop
  | nil {taken : List Stamp} : Settles taken [] []
  | cons {taken written got : List Stamp} {s t : Stamp} (h : IsFirstFrom s taken t)
      (hrest : Settles (taken ++ [t]) written got) : Settles taken (s :: written) (t :: got)

/-- The items of a text, with their stamps as they are written and their bodies. -/
def found (text : String) : List (Stamp × String) :=
  match (Cursor.start text).past? ['>'] with
  | some c => (scan c).1
  | none => []

section
variable {q q' : Queue} {s t u : Stamp} {p : Payload} {m : UInt64} {k : Nat}
  {taken taken' written got : List Stamp} {items placed : List Event} {text : String}

/-! ## Stamps in use -/

theorem uses_map_fst : Uses (items.map Prod.fst) m k ↔ k ∈ seqsAt m items := by
  rw [mem_seqsAt]
  constructor
  · intro ⟨u, hu, hm, hk⟩
    obtain ⟨e, he, rfl⟩ := List.mem_map.1 hu
    exact ⟨e, he, hm, hk⟩
  · intro ⟨e, he, hm, hk⟩
    exact ⟨e.1, List.mem_map_of_mem he, hm, hk⟩

theorem Uses.of_perm (h : Uses taken m k) (hperm : taken.Perm taken') : Uses taken' m k := by
  obtain ⟨u, hu, hmk⟩ := h
  exact ⟨u, hperm.subset hu, hmk⟩

/-- Which stamp is the first hangs on what is in use, and not on its order. -/
theorem IsFirstFrom.of_perm (h : IsFirstFrom s taken t) (hperm : taken.Perm taken') :
    IsFirstFrom s taken' t where
  micros := h.micros
  le := h.le
  free := fun ht => h.free (hperm.symm.subset ht)
  used := fun k hle hlt => (h.used k hle hlt).of_perm hperm

theorem Settles.of_perm (h : Settles taken written got) (hperm : taken.Perm taken') :
    Settles taken' written got := by
  induction h generalizing taken' with
  | nil => exact .nil
  | cons hfirst _ ih => exact .cons (hfirst.of_perm hperm) (ih (hperm.append_right _))

/-- As many stamps are got as are written. -/
theorem Settles.length_eq (h : Settles taken written got) : got.length = written.length := by
  induction h with
  | nil => rfl
  | cons _ _ ih => simp [ih]

theorem Crowded.of_perm (h : Crowded s taken) (hperm : taken.Perm taken') : Crowded s taken' := by
  intro k hle hlt
  exact (h k hle hlt).of_perm hperm

theorem Stamp.eq_of_seq (hm : t.micros = u.micros) (hs : t.seq.toNat = u.seq.toNat) : t = u := by
  obtain ⟨tm, ts⟩ := t
  obtain ⟨um, us⟩ := u
  simp only [Stamp.mk.injEq]
  exact ⟨hm, UInt32.toNat_inj.1 hs⟩

/-- A stamp whose number is in use is in use itself. -/
theorem mem_of_uses (h : Uses taken t.micros t.seq.toNat) : t ∈ taken := by
  obtain ⟨u, hu, hm, hs⟩ := h
  rwa [← Stamp.eq_of_seq hm hs]

theorem IsFirstFrom.unique (h : IsFirstFrom s taken t) (h' : IsFirstFrom s taken u) : t = u := by
  -- The smaller of the two would be in use, as it lies before the other.
  have hnot : ∀ {a b : Stamp}, IsFirstFrom s taken a → IsFirstFrom s taken b →
      ¬ a.seq.toNat < b.seq.toNat := by
    intro a b ha hb hlt
    have huses := hb.used _ ha.le hlt
    rw [← ha.micros] at huses
    exact ha.free (mem_of_uses huses)
  have hlt := hnot h h'
  have hgt := hnot h' h
  exact Stamp.eq_of_seq (h.micros.trans h'.micros.symm) (by omega)

/-- Where all are in use, none is the first that is not. -/
theorem Crowded.not_isFirstFrom (h : Crowded s taken) : ¬ IsFirstFrom s taken t := by
  intro ht
  have huses := h _ ht.le t.seq.toNat_lt
  rw [← ht.micros] at huses
  exact ht.free (mem_of_uses huses)

/-- A microsecond is crowded by no fewer stamps than there are numbers left. -/
theorem Crowded.le_length (h : Crowded s taken) : 2 ^ 32 ≤ s.seq.toNat + taken.length := by
  have hlt := s.seq.toNat_lt
  have hsub : List.Subperm (List.range' s.seq.toNat (2 ^ 32 - s.seq.toNat))
      (taken.map fun u => u.seq.toNat) := by
    refine (List.nodup_range' ..).subperm ?_
    intro k hk
    rw [List.mem_range'_1] at hk
    obtain ⟨u, hu, -, hs⟩ := h k hk.1 (by omega)
    exact List.mem_map.2 ⟨u, hu, hs⟩
  have hle := hsub.length_le
  rw [List.length_range', List.length_map] at hle
  omega

/-! ## Placing -/

theorem seq_le_of_placeIn (h : placeIn s p items = some (t, placed)) :
    s.seq.toNat ≤ t.seq.toNat := by
  induction items generalizing s placed with
  | nil =>
    cases h
    exact Nat.le_refl _
  | cons item rest ih =>
    unfold placeIn at h
    split at h
    · cases h
      exact Nat.le_refl _
    · split at h
      · split at h
        · cases h
        · rename_i s' hnext
          obtain ⟨⟨t', placed'⟩, hplaced, he⟩ := Option.map_eq_some_iff.1 h
          cases he
          have hstep := Stamp.seq_of_next?_eq_some hnext
          have hrest := ih hplaced
          omega
      · obtain ⟨⟨t', placed'⟩, hplaced, he⟩ := Option.map_eq_some_iff.1 h
        cases he
        exact ih hplaced

/-- A payload is placed at the first stamp that is free, unless there is none. -/
theorem place_cases (q : Queue) (s : Stamp) (p : Payload) :
    (∃ t q', q.place s p = .ok (t, q') ∧ IsFirstFrom s (q.items.map Prod.fst) t ∧
        q'.items.Perm (q.items ++ [(t, p)])) ∨
      q.place s p = .error (.full s.micros) ∧ Crowded s (q.items.map Prod.fst) := by
  cases hplace : placeIn s p q.items with
  | some found =>
    obtain ⟨t, placed⟩ := found
    have hperm := perm_of_placeIn hplace
    refine .inl ⟨t, _, place_eq_ok hplace, ?_, hperm.trans (List.perm_append_singleton ..).symm⟩
    refine ⟨micros_of_placeIn hplace, seq_le_of_placeIn hplace, fun hmem => ?_, fun k hle hlt => ?_⟩
    · -- Were the stamp in use before, two events would have it now.
      have hnodup : (placed.map Prod.fst).Nodup := by
        rw [List.Nodup, List.pairwise_map]
        refine (rising_placeIn hplace q.rising).imp fun {a b} hlt heq => ?_
        rw [heq] at hlt
        exact Stamp.lt_irrefl _ hlt
      have hcons := (hperm.map Prod.fst).nodup_iff.1 hnodup
      exact (List.nodup_cons.1 hcons).1 hmem
    · apply uses_map_fst.2
      apply mem_seqsAt_of_placeIn (p := p) (Nat.le_of_lt t.seq.toNat_lt) _ hle hlt
      intro t' placed' h
      rw [hplace] at h
      cases h
      exact Nat.le_refl _
  | none =>
    refine .inr ⟨?_, fun k hle hlt => uses_map_fst.2 ?_⟩
    · unfold place
      split
      · rename_i h
        rw [hplace] at h
        cases h
      · rfl
    · apply mem_seqsAt_of_placeIn (p := p) (Nat.le_refl _) _ hle hlt
      intro t placed h
      rw [hplace] at h
      cases h

/-- Events that settle on stamps are put into the queue under these. -/
theorem exists_placeAll_of_settles (h : Settles taken written got)
    (htaken : taken.Perm (q.items.map Prod.fst)) (hwritten : items.map Prod.fst = written) :
    ∃ q' : Queue, q'.items.Perm (q.items ++ got.zip (items.map Prod.snd)) ∧
      ∀ back, q.placeAll (items ++ back) = q'.placeAll back := by
  induction h generalizing q items with
  | nil =>
    rw [List.map_eq_nil_iff.1 hwritten]
    exact ⟨q, by simp, fun _ => rfl⟩
  | @cons taken written got s t hfirst hrest ih =>
    obtain ⟨item, rest, rfl, rfl, hitems⟩ := List.map_eq_cons_iff.1 hwritten
    have hfirst := hfirst.of_perm htaken
    rcases place_cases q item.1 item.2 with ⟨t', q₁, hplace, hfirst', hperm⟩ | ⟨-, hcrowded⟩
    · obtain rfl : t = t' := hfirst.unique hfirst'
      have htaken₁ : (taken ++ [t]).Perm (q₁.items.map Prod.fst) := by
        have hstamps := hperm.map Prod.fst
        rw [List.map_append] at hstamps
        exact (htaken.append_right [t]).trans hstamps.symm
      obtain ⟨q', hperm', hall⟩ := ih htaken₁ hitems
      refine ⟨q', ?_, fun back => ?_⟩
      · have hmore := hperm'.trans (hperm.append_right _)
        rwa [List.append_assoc] at hmore
      · rw [List.cons_append, placeAll, hplace]
        exact hall back
    · exact absurd hfirst hcrowded.not_isFirstFrom

/-- The first event that finds its microsecond crowded is not placed, nor are those behind it. -/
theorem placeAll_of_crowded {front back : List Event} {item : Event}
    (h : Settles (q.items.map Prod.fst) (front.map Prod.fst) got)
    (hcrowded : Crowded item.1 (q.items.map Prod.fst ++ got)) :
    q.placeAll (front ++ item :: back) = .error (.full item.1.micros) := by
  obtain ⟨q', hperm, hall⟩ := exists_placeAll_of_settles h (.refl _) rfl
  have hstamps : (q.items.map Prod.fst ++ got).Perm (q'.items.map Prod.fst) := by
    have hlength : got.length = front.length := h.length_eq.trans (List.length_map ..)
    have hmap := hperm.map Prod.fst
    rw [List.map_append, List.map_fst_zip (by simp [hlength])] at hmap
    exact hmap.symm
  rw [hall, placeAll]
  rcases place_cases q' item.1 item.2 with ⟨t, q₁, -, hfirst, -⟩ | ⟨hplace, -⟩
  · exact absurd hfirst (hcrowded.of_perm hstamps).not_isFirstFrom
  · rw [hplace]

/-- Events settle on stamps, all of them or those in front of one that finds its microsecond crowded. -/
theorem settles_cases (q : Queue) (items : List Event) :
    (∃ got, Settles (q.items.map Prod.fst) (items.map Prod.fst) got) ∨
      ∃ front item back got, items = front ++ item :: back ∧
        Settles (q.items.map Prod.fst) (front.map Prod.fst) got ∧
        Crowded item.1 (q.items.map Prod.fst ++ got) := by
  induction items generalizing q with
  | nil => exact .inl ⟨[], .nil⟩
  | cons item items ih =>
    rcases place_cases q item.1 item.2 with ⟨t, q₁, -, hfirst, hperm⟩ | ⟨-, hcrowded⟩
    · have hstamps : (q₁.items.map Prod.fst).Perm (q.items.map Prod.fst ++ [t]) := by
        have hmap := hperm.map Prod.fst
        rwa [List.map_append] at hmap
      rcases ih q₁ with ⟨got, hrest⟩ | ⟨front, later, back, got, rfl, hfront, hcrowded⟩
      · exact .inl ⟨t :: got, .cons hfirst (hrest.of_perm hstamps)⟩
      · refine .inr ⟨item :: front, later, back, t :: got, rfl,
          .cons hfirst (hfront.of_perm hstamps), ?_⟩
        have hmoved := hcrowded.of_perm (hstamps.append_right got)
        rwa [List.append_assoc] at hmoved
    · exact .inr ⟨[], item, items, [], rfl, .nil, by rwa [List.append_nil]⟩

/-! ## The items of a text -/

/-- A text of blanks has no items. -/
theorem found_of_isBlankText (h : isBlankText text = true) : found text = [] := by
  unfold found
  split
  · rename_i c hpast
    obtain ⟨parts, hcut, -⟩ := Option.map_eq_some_iff.1 hpast
    have hmem : '>' ∈ text.toList := by
      rw [show text.toList = _ from cutPattern?_eq_some hcut]
      simp
    have hblank := List.all_eq_true.1 h '>' hmem
    exact absurd hblank (by decide)
  · rfl

theorem exists_past?_of_mem (h : '>' ∈ text.toList) :
    ∃ c, (Cursor.start text).past? ['>'] = some c := by
  obtain ⟨before, after, hsplit, hnot⟩ := List.eq_append_cons_of_mem h
  have hfirst : ∀ x ∈ before, x ≠ '>' := by
    intro x hx heq
    rw [heq] at hx
    exact hnot hx
  have hcut := cutPattern?_singleton hfirst after
  rw [← hsplit] at hcut
  rw [Cursor.past?, Cursor.start, hcut]
  exact ⟨_, rfl⟩

/-- A header ends with a bracket. -/
theorem bracket_mem_of_header? {n : Nat} (h : header? text = some n) : '>' ∈ text.toList := by
  unfold header? at h
  split at h
  · cases h
  · rename_i rest hdrop
    split at h
    · cases h
    · rename_i header behind hcut
      have hmem : '>' ∈ text.toList.dropWhile isBlank := by
        rw [dropPattern?_eq_some.1 hdrop, cutFirst?_eq_some hcut]
        simp
      exact (List.dropWhile_sublist _).subset hmem

/-- What ends a search for items is a stamp that is none. -/
theorem invalidStamp_of_scan {c : Cursor} {e : Error} (h : (scan c).2 = some e) :
    ∃ stampText, e = .invalidStamp stampText := by
  fun_induction scan c with
  | case1 => cases h
  | case2 => cases h
  | case3 =>
    cases h
    exact ⟨_, rfl⟩
  | case4 _ _ _ _ _ _ _ _ _ _ _ _ hrest ih => exact ih (by rw [hrest]; exact h)
  | case5 _ _ _ _ _ _ _ ih => exact ih h

/-- What is placed of a text whose header is read. -/
def placeFound (text : String) : Except Error Queue :=
  empty.placeAll ((found text).map fun item => (item.1, .written item.2))

/-- A text whose header is read is read as its items are placed, if they are as many as announced and
    none of them has a stamp that is none. -/
theorem parse_of_header {n : Nat} (hb : isBlankText text = false) (hh : header? text = some n) :
    (∀ q, parse text = .ok q → placeFound text = .ok q ∧ (found text).length = n) ∧
      ∀ m, parse text = .error (.full m) ↔ placeFound text = .error (.full m) := by
  obtain ⟨c, hpast⟩ := exists_past?_of_mem (bracket_mem_of_header? hh)
  have hfound : found text = (scan c).1 := by
    rw [found, hpast]
  have hparse : parse text = placeFound text >>= fun q => (scan c).2.elim
      (if (found text).length = n then .ok q else .error (.corrupted n (found text).length))
      Except.error := by
    simp only [parse, hb, hh, hpast, placeFound, hfound, Bool.false_eq_true, if_false]
    cases empty.placeAll ((scan c).1.map fun item => (item.1, .written item.2)) with
    | error e => rfl
    | ok q => cases (scan c).2 <;> rfl
  rw [hparse]
  cases placeFound text with
  | error e =>
    refine ⟨fun q' h => ?_, fun m => Iff.rfl⟩
    cases h
  | ok q =>
    cases hproblem : (scan c).2 with
    | some e =>
      obtain ⟨stampText, rfl⟩ := invalidStamp_of_scan hproblem
      refine ⟨fun q' h => ?_, fun m => ⟨fun h => ?_, fun h => ?_⟩⟩ <;> cases h
    | none =>
      by_cases hlength : (found text).length = n
      · simp only [if_pos hlength]
        exact ⟨fun q' h => ⟨h, hlength⟩, fun m => Iff.rfl⟩
      · simp only [if_neg hlength]
        refine ⟨fun q' h => ?_, fun m => ⟨fun h => ?_, fun h => ?_⟩⟩ <;> cases h

/-- The items of a text as events that are to be placed. -/
theorem map_fst_events (items : List (Stamp × String)) :
    (items.map fun item => (item.1, Payload.written item.2)).map Prod.fst = items.map Prod.fst := by
  rw [List.map_map]
  rfl

/-- Items that are placed are under the stamps on which they settle. -/
theorem exists_settles_of_placeFound (h : placeFound text = .ok q) :
    ∃ got, Settles [] ((found text).map Prod.fst) got ∧
      q.items.Perm (got.zip ((found text).map fun item => .written item.2)) := by
  unfold placeFound at h
  rcases settles_cases empty ((found text).map fun item => (item.1, .written item.2)) with
    ⟨got, hgot⟩ | ⟨front, item, back, got, hitems, hfront, hcrowded⟩
  · obtain ⟨q', hperm, hall⟩ := exists_placeAll_of_settles hgot (.refl _) rfl
    have hplace := hall []
    rw [List.append_nil, h] at hplace
    cases hplace
    rw [map_fst_events] at hgot
    rw [List.map_map] at hperm
    exact ⟨got, hgot, hperm⟩
  · rw [hitems, placeAll_of_crowded hfront hcrowded] at h
    cases h

/-- Items are not placed where one of them is left no number by those in front of it. -/
theorem placeFound_full_iff : placeFound text = .error (.full m) ↔
    ∃ front item back got, found text = front ++ item :: back ∧
      Settles [] (front.map Prod.fst) got ∧ Crowded item.1 got ∧ item.1.micros = m := by
  unfold placeFound
  constructor
  · intro h
    rcases settles_cases empty ((found text).map fun item => (item.1, .written item.2)) with
      ⟨got, hgot⟩ | ⟨front, item, back, got, hitems, hfront, hcrowded⟩
    · obtain ⟨q', -, hall⟩ := exists_placeAll_of_settles hgot (.refl _) rfl
      have hplace := hall []
      rw [List.append_nil, h] at hplace
      cases hplace
    · rw [hitems, placeAll_of_crowded hfront hcrowded] at h
      cases h
      obtain ⟨front', tail, hsplit, rfl, htail⟩ := List.map_eq_append_iff.1 hitems
      obtain ⟨item', back', rfl, rfl, -⟩ := List.map_eq_cons_iff.1 htail
      rw [map_fst_events] at hfront
      exact ⟨front', item', back', got, hsplit, hfront, hcrowded, rfl⟩
  · intro ⟨front, item, back, got, hsplit, hfront, hcrowded, hm⟩
    rw [hsplit, List.map_append, List.map_cons, ← hm]
    rw [← map_fst_events] at hfront
    exact placeAll_of_crowded hfront hcrowded

/-- The items of a text that is read are all in the queue, each under the microsecond that is written in
    it and the first number from the written one on that no item in front of it has, and the queue has as
    many as the header announces. There is no queue for want of a number exactly when one is left to an
    item by those in front of it, which must be as many as there are numbers from its own on. -/
theorem parse_settles (text : String) :
    (∀ q, parse text = .ok q → ∃ got, Settles [] ((found text).map Prod.fst) got ∧
        q.items.Perm (got.zip ((found text).map fun item => .written item.2)) ∧
        (isBlankText text = false → header? text = some q.size)) ∧
      (∀ m, parse text = .error (.full m) ↔ (header? text).isSome ∧
        ∃ front item back got, found text = front ++ item :: back ∧
          Settles [] (front.map Prod.fst) got ∧ Crowded item.1 got ∧ item.1.micros = m) ∧
      ∀ m, parse text = .error (.full m) → ∃ front item back, found text = front ++ item :: back ∧
        item.1.micros = m ∧ 2 ^ 32 ≤ item.1.seq.toNat + front.length := by
  have hfull : ∀ m, parse text = .error (.full m) ↔ (header? text).isSome ∧
      ∃ front item back got, found text = front ++ item :: back ∧
        Settles [] (front.map Prod.fst) got ∧ Crowded item.1 got ∧ item.1.micros = m := by
    intro m
    rw [← placeFound_full_iff]
    cases hb : isBlankText text with
    | true => simp [parse, hb, placeFound, found_of_isBlankText hb, placeAll]
    | false =>
      cases hh : header? text with
      | none => simp [parse, hb, hh]
      | some n => simpa using (parse_of_header hb hh).2 m
  refine ⟨fun q h => ?_, hfull, fun m h => ?_⟩
  · cases hb : isBlankText text with
    | true =>
      rw [parse, if_pos hb] at h
      cases h
      rw [found_of_isBlankText hb]
      refine ⟨[], .nil, .refl _, fun hwritten => ?_⟩
      cases hwritten
    | false =>
      cases hh : header? text with
      | none => simp [parse, hb, hh] at h
      | some n =>
        obtain ⟨hplace, hlength⟩ := (parse_of_header hb hh).1 q h
        obtain ⟨got, hgot, hperm⟩ := exists_settles_of_placeFound hplace
        refine ⟨got, hgot, hperm, fun _ => ?_⟩
        have hsize := hperm.length_eq
        have hgotten := hgot.length_eq
        simp only [List.length_zip, List.length_map] at hsize hgotten
        rw [size, hsize, hgotten, Nat.min_self, hlength]
  · obtain ⟨-, front, item, back, got, hsplit, hfront, hcrowded, hm⟩ := (hfull m).1 h
    have hle := hcrowded.le_length
    rw [hfront.length_eq, List.length_map] at hle
    exact ⟨front, item, back, hsplit, hm, hle⟩

/-- A text with two items that ask for the last number of a microsecond. -/
def twiceLast : String :=
  "<Queue num=\"2\"><Item timeStamp=\"5-4294967295\">a</Item>" ++
    "<Item timeStamp=\"5-4294967295\">b</Item></Queue>"

/-- The second of them finds no number, so they settle on no stamps. -/
theorem parse_crowded_out :
    parse twiceLast = .error (.full 5) ∧
      ¬ ∀ text, ∃ got, Settles [] ((found text).map Prod.fst) got := by
  constructor
  · have hread : (parse twiceLast).map size = .error (.full 5) := by decide +kernel
    cases hparse : parse twiceLast with
    | error e =>
      rw [hparse] at hread
      cases hread
      rfl
    | ok q =>
      rw [hparse] at hread
      cases hread
  · intro hall
    obtain ⟨got, hgot⟩ := hall twiceLast
    have hfound : (found twiceLast).map Prod.fst = [⟨5, 4294967295⟩, ⟨5, 4294967295⟩] := by
      decide +kernel
    rw [hfound] at hgot
    cases hgot with
    | @cons _ _ _ _ t hfirst hrest =>
      cases hrest with
      | @cons _ _ _ _ u hsecond _ =>
        -- Both would have the last number.
        have hlast : ∀ {taken v}, IsFirstFrom ⟨5, 4294967295⟩ taken v → v.seq.toNat = 4294967295 := by
          intro taken v hv
          have hle : 4294967295 ≤ v.seq.toNat := hv.le
          have hlt := v.seq.toNat_lt
          omega
        have hsame : u = t := Stamp.eq_of_seq (hsecond.micros.trans hfirst.micros.symm)
          ((hlast hsecond).trans (hlast hfirst).symm)
        exact hsecond.free (by simp [hsame])

end
end Lockstep.Queue
