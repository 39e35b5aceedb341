import Lockstep.Proofs.Queue.Canonical

/- What reading can make of the text of any queue.

   1. The text of a queue is read as a queue of as many items, or not at all (`exists_scan_of_render`).
      Up to the first payload that is no content, the items come back as they were (`mem_of_render`).
   2. An item ends at a closing tag of its name. Where no payload holds the beginning of one, an item
      that does not end where it should swallows others (`exists_behind`), and there are too few items
      then (`scan_of_unclosed`).
   3. So a queue that is read but is not the one that was written has a payload with such a closing tag
      in it. A payload is written as it is, and such queues are there (`integrity_fails`). -/
namespace Lockstep.Queue
open Text Markup

/-! ## The text of a queue is read in part -/

/-- A reading of the text of a queue places as many items as the queue has. -/
theorem exists_scan_of_render {q r : Queue} (h : parse q.render = .ok r) :
    ∃ pos, (scan ⟨pos, q.items.flatMap itemChars ++ closeChars queueTag⟩).1.length = q.size ∧
      empty.placeAll ((scan ⟨pos, q.items.flatMap itemChars ++ closeChars queueTag⟩).1.map
        fun item => (item.1, .written item.2)) = .ok r := by
  obtain ⟨pos, hpast⟩ := past?_render q
  simp only [parse, isBlankText_render, Bool.false_eq_true, if_false, hpast] at h
  split at h
  · rename_i expected c hheader hc
    cases hc
    have hsize : expected = q.size := by
      rw [header?_render_eq] at hheader
      exact Numeral.eq_of_natural?_naturalChars hheader
    split at h
    · cases h
    · rename_i q' hplace
      split at h
      · cases h
      · split at h
        · rename_i hlength
          cases h
          exact ⟨pos, hlength.trans hsize, hplace⟩
        · cases h
  · cases h

/-- Reading finds all items or fails. -/
theorem size_of_render {q r : Queue} (h : parse q.render = .ok r) : r.size = q.size := by
  obtain ⟨pos, hlength, hplace⟩ := exists_scan_of_render h
  have hperm := (perm_of_placeAll hplace).length_eq
  rw [List.length_append, List.length_map, List.length_map, List.length_map, List.length_map,
    hlength] at hperm
  exact hperm.trans (Nat.zero_add _)

theorem placeAll_append {q q' : Queue} {items : List Event} (h : q.placeAll items = .ok q')
    (more : List Event) : q.placeAll (items ++ more) = q'.placeAll more := by
  induction items generalizing q with
  | nil =>
    cases h
    rfl
  | cons first rest ih =>
    obtain ⟨s, p⟩ := first
    rw [placeAll] at h
    rw [List.cons_append, placeAll]
    split at h
    · cases h
    · rename_i t q₁ hplace
      exact ih h

/-- The items in front of the first payload that is no content come back as they were. -/
theorem mem_of_render {q r : Queue} (h : parse q.render = .ok r) {front back : List Event}
    (hq : q.items = front ++ back) (hfront : ∀ item ∈ front, IsContent 1 item.2.text.toList)
    {item : Event} (hitem : item ∈ front) : (item.1, .written item.2.text) ∈ r.items := by
  obtain ⟨pos, -, hplace⟩ := exists_scan_of_render h
  rw [hq, List.flatMap_append, List.append_assoc] at hplace
  obtain ⟨pos', hscan⟩ := scan_append hfront pos (back.flatMap itemChars ++ closeChars queueTag)
  have hrising : Rising (front.map fun item => (item.1, Payload.written item.2.text)) :=
    rising_written (List.pairwise_append.1 (hq ▸ q.rising)).1
  have hplaced := placeAll_of_rising (q := empty) hrising
  simp only [hscan, List.map_append, List.map_map, Function.comp_def,
    placeAll_append hplaced] at hplace
  exact mem_of_placeAll hplace (List.mem_map_of_mem hitem)

/-! ## Where an item ends -/

/-- The beginning of every closing tag of an item. -/
def itemClosing : List Char := '<' :: '/' :: itemTag

theorem exists_behind_of_not_mem {x : Char} {u v w rest : List Char} (hx : x ∉ u)
    (h : u ++ v = w ++ x :: rest) : ∃ w', w = u ++ w' ∧ v = w' ++ x :: rest := by
  induction u generalizing w with
  | nil => exact ⟨w, rfl, h⟩
  | cons y u ih =>
    obtain ⟨hy, hu⟩ := not_or.1 (mt List.mem_cons.2 hx)
    cases w with
    | nil => exact absurd (List.cons.inj h).1.symm hy
    | cons z w =>
      obtain ⟨rfl, htail⟩ := List.cons.inj h
      obtain ⟨w', rfl, hv⟩ := ih hu htail
      exact ⟨w', rfl, hv⟩

/-- A closing tag does not begin in a text that holds no beginning of one, if a tag follows. -/
theorem exists_behind_of_not_infix {u v w rest : List Char} (hu : ¬ itemClosing <:+: u)
    (h : u ++ '<' :: v = w ++ (itemClosing ++ rest)) :
    ∃ w', w = u ++ w' ∧ '<' :: v = w' ++ (itemClosing ++ rest) := by
  rcases List.append_eq_append_iff.1 h with ⟨w', rfl, hv⟩ | ⟨u', rfl, hv⟩
  · exact ⟨w', rfl, hv⟩
  · cases u' with
    | nil => exact ⟨[], by rw [List.append_nil, List.append_nil], hv.symm⟩
    | cons x u' =>
      -- The tag begins in the text, and holds no other bracket, so it ends in the text too.
      obtain ⟨rfl, htail⟩ := List.cons.inj hv
      have htag : '<' ∉ '/' :: itemTag := by decide
      obtain ⟨u'', rfl, -⟩ := exists_behind_of_not_mem htag htail
      exact absurd ⟨w, u'', by rw [itemClosing, List.append_assoc]; rfl⟩ hu

/-- The first closing tag of an item behind a payload that holds none is that of its own item, or one
    that stands behind the item. -/
theorem closing_cases {payload behind w rest : List Char} (hp : ¬ itemClosing <:+: payload)
    (h : payload ++ (closeChars itemTag ++ behind) = w ++ (itemClosing ++ rest)) :
    (w = payload ∧ rest = '>' :: behind) ∨ ∃ w', behind = w' ++ (itemClosing ++ rest) := by
  have hclose : closeChars itemTag ++ behind = '<' :: ('/' :: itemTag ++ ['>'] ++ behind) := rfl
  rw [hclose] at h
  obtain ⟨w', rfl, hbehind⟩ := exists_behind_of_not_infix hp h
  cases w' with
  | nil =>
    refine .inl ⟨List.append_nil _, ?_⟩
    have hrest : itemClosing ++ '>' :: behind = itemClosing ++ rest := hbehind
    exact (List.append_cancel_left hrest).symm
  | cons x w' =>
    obtain ⟨rfl, htail⟩ := List.cons.inj hbehind
    have htag : '<' ∉ '/' :: itemTag ++ ['>'] := by decide
    obtain ⟨w'', -, hbehind⟩ := exists_behind_of_not_mem htag htail
    exact .inr ⟨w'', hbehind⟩

/-- No closing tag begins in the tag of an item. -/
theorem exists_behind_tagChars {s : Stamp} {v w rest : List Char}
    (h : tagChars itemTag stampKey s.chars ++ v = w ++ (itemClosing ++ rest)) :
    ∃ w', v = w' ++ (itemClosing ++ rest) := by
  have htag : tagChars itemTag stampKey s.chars =
      '<' :: (itemTag ++ ' ' :: stampKey ++ ['=', '"'] ++ s.chars ++ ['"', '>']) := rfl
  rw [htag] at h
  cases w with
  | nil => exact absurd (List.cons.inj (List.cons.inj h).2).1 (by decide)
  | cons x w =>
    obtain ⟨-, htail⟩ := List.cons.inj h
    have hfront : '<' ∉ itemTag ++ ' ' :: stampKey ++ ['=', '"'] := by decide
    have hnone : '<' ∉ itemTag ++ ' ' :: stampKey ++ ['=', '"'] ++ s.chars ++ ['"', '>'] := by
      intro hmem
      rcases List.mem_append.1 hmem with hmem | hmem
      · rcases List.mem_append.1 hmem with hmem | hmem
        · exact hfront hmem
        · rcases Stamp.of_mem_chars hmem with hd | hd
          · exact absurd hd (by decide)
          · exact absurd hd (by decide)
      · exact absurd hmem (by decide)
    obtain ⟨w', -, hv⟩ := exists_behind_of_not_mem hnone htail
    exact ⟨w', hv⟩

/-- Where no payload holds the beginning of a closing tag, those of items are where items end. -/
theorem exists_behind {items : List Event}
    (hi : ∀ item ∈ items, ¬ itemClosing <:+: item.2.text.toList) {w rest : List Char}
    (h : items.flatMap itemChars ++ closeChars queueTag = w ++ (itemClosing ++ rest)) :
    ∃ front item back, items = front ++ item :: back ∧
      rest = '>' :: (back.flatMap itemChars ++ closeChars queueTag) := by
  induction items generalizing w with
  | nil =>
    have hnone : ¬ itemClosing <:+: closeChars queueTag := by decide
    exact absurd ⟨w, rest, by rw [List.append_assoc]; exact h.symm⟩ hnone
  | cons item items ih =>
    rw [List.flatMap_cons, List.append_assoc, itemChars_append] at h
    obtain ⟨w', hbehind⟩ := exists_behind_tagChars h
    rcases closing_cases (hi item List.mem_cons_self) hbehind with ⟨-, hrest⟩ | ⟨w'', hitems⟩
    · exact ⟨[], item, items, rfl, hrest⟩
    · obtain ⟨front, last, back, rfl, hrest⟩ := ih (fun i h => hi i (List.mem_cons_of_mem item h)) hitems
      exact ⟨item :: front, last, back, rfl, hrest⟩

/-! ## Too few items -/

/-- What is found where an item begins: nothing, or content up to a closing tag. -/
theorem scan_tagChars_cases (s : Stamp) (pos : Nat) (behind : List Char) :
    scan ⟨pos, tagChars itemTag stampKey s.chars ++ behind⟩ = ([], none) ∨
      ∃ w z rest, behind = w ++ (z ++ rest) ∧ IsContent 1 w ∧
        IsCloseTag z (String.ofList itemTag) := by
  have hfind := find?_tagChars pos s.chars behind
  have hopen := isOpenTag_tagChars isName_itemTag isName_stampKey (of_mem_stampChars (s := s))
  cases hread : readElement ⟨pos, tagChars itemTag stampKey s.chars ++ behind⟩ with
  | error e => exact .inl (scan_of_readElement hfind hread)
  | ok found =>
    right
    simp only [readElement, hopen.takes pos behind, Bool.false_eq_true, if_false] at hread
    obtain ⟨w, z, rest, o', hw, hz, hbehind⟩ := exists_fills hread
    exact ⟨w, z, rest, hbehind, hw.isContent, hz⟩

theorem eq_of_gap {gap rest behind : List Char} (hg : IsGap gap)
    (h : gap ++ '>' :: rest = '>' :: behind) : rest = behind := by
  cases gap with
  | nil => exact (List.cons.inj h).2
  | cons x gap =>
    obtain ⟨rfl, -⟩ := List.cons.inj h
    exact absurd (hg '>' List.mem_cons_self) (by decide)

/-- Where no payload holds the beginning of a closing tag, no more items are found than there are, and
    as many only if each payload is content: an item that does not end where it should swallows the one
    behind it. -/
theorem scan_of_unclosed {items : List Event}
    (hi : ∀ item ∈ items, ¬ itemClosing <:+: item.2.text.toList) (pos : Nat) :
    (scan ⟨pos, items.flatMap itemChars ++ closeChars queueTag⟩).1.length ≤ items.length ∧
      ((scan ⟨pos, items.flatMap itemChars ++ closeChars queueTag⟩).1.length = items.length →
        ∀ item ∈ items, IsContent 1 item.2.text.toList) := by
  -- An item may swallow any number of those behind it, so the induction is on how many there are.
  induction hn : items.length using Nat.strongRecOn generalizing items pos with
  | _ n ih =>
  subst hn
  cases items with
  | nil =>
    rw [List.flatMap_nil, List.nil_append, scan_closeChars]
    exact ⟨Nat.le_refl 0, fun _ => nofun⟩
  | cons item items =>
    have hrest : ∀ i ∈ items, ¬ itemClosing <:+: i.2.text.toList := fun i h =>
      hi i (List.mem_cons_of_mem item h)
    rw [List.flatMap_cons, List.append_assoc, itemChars_append]
    rcases scan_tagChars_cases item.1 pos (item.2.text.toList ++ (closeChars itemTag ++
      (items.flatMap itemChars ++ closeChars queueTag))) with hnone | ⟨w, z, rest, hbehind, hw, hz⟩
    · rw [hnone]
      exact ⟨Nat.zero_le _, nofun⟩
    · obtain ⟨pos', hscan⟩ := scan_tagChars (s := item.1) hw hz pos rest
      obtain ⟨gap, hgap, -, rfl⟩ := hz
      have hclosing : w ++ ('<' :: '/' :: ((String.ofList itemTag).toList ++ (gap ++ ['>'])) ++ rest) =
          w ++ (itemClosing ++ (gap ++ '>' :: rest)) := by
        simp only [String.toList_ofList, itemClosing, List.cons_append, List.append_assoc,
          List.nil_append]
      rw [hbehind, hscan, List.length_cons, List.length_cons]
      rw [hclosing] at hbehind
      rcases closing_cases (hi item List.mem_cons_self) hbehind with ⟨rfl, hafter⟩ | ⟨w', hitems⟩
      · obtain ⟨hle, heq⟩ := ih items.length (Nat.lt_succ_self _) hrest pos' rfl
        rw [eq_of_gap hgap hafter]
        refine ⟨Nat.succ_le_succ hle, fun hlength i hmem => ?_⟩
        rcases List.mem_cons.1 hmem with rfl | hmem
        · exact hw
        · exact heq (Nat.succ.inj hlength) i hmem
      · obtain ⟨front, last, back, rfl, hafter⟩ := exists_behind hrest hitems
        have hlt : back.length < (front ++ last :: back).length := by
          rw [List.length_append, List.length_cons]
          omega
        obtain ⟨hle, -⟩ := ih back.length (Nat.lt_succ_of_lt hlt)
          (fun i h => hrest i (List.mem_append_right _ (List.mem_cons_of_mem _ h))) pos' rfl
        rw [eq_of_gap hgap hafter]
        exact ⟨by omega, fun hlength => by omega⟩

/-! ## The queue that was written -/

/-- A queue whose text is read comes back as it was exactly when every payload is content. -/
theorem eq_written_iff {q r : Queue} (h : parse q.render = .ok r) : r = q.written ↔ q.Readable := by
  constructor
  · rintro rfl item hitem
    exact readable_of_parse h (item.1, .written item.2.text) (List.mem_map_of_mem hitem)
  · intro hq
    have hsize : q.size < 2 ^ 64 := size_of_render h ▸ size_lt_of_parse h
    rw [parse_render hq hsize] at h
    exact (Except.ok.inj h).symm

/-- A queue that is read from the text of another is that other, with the texts of its payloads, exactly
    when each of those is content. Otherwise it has as many items all the same, and those in front of
    the first such payload are unharmed. Harm takes a payload with the beginning of a closing tag of an
    item in it. -/
theorem integrity (q : Queue) :
    ((∀ r, parse q.render = .ok r → r = q.written) ↔
        q.Readable ∨ ∃ e, parse q.render = .error e) ∧
      (∀ r, parse q.render = .ok r → r.size = q.size ∧
        ∀ front back, q.items = front ++ back →
          (∀ item ∈ front, IsContent 1 item.2.text.toList) →
          ∀ item ∈ front, (item.1, .written item.2.text) ∈ r.items) ∧
      ((∀ item ∈ q.items, ¬ itemClosing <:+: item.2.text.toList) →
        ∀ r, parse q.render = .ok r → r = q.written) := by
  refine ⟨⟨fun hall => ?_, ?_⟩, fun r h => ⟨size_of_render h, ?_⟩, fun hi r h => ?_⟩
  · cases h : parse q.render with
    | error e => exact .inr ⟨e, rfl⟩
    | ok r => exact .inl ((eq_written_iff h).1 (hall r h))
  · rintro (hq | ⟨e, he⟩) r h
    · exact (eq_written_iff h).2 hq
    · rw [he] at h
      cases h
  · intro front back hq hfront item hitem
    exact mem_of_render h hq hfront hitem
  · obtain ⟨pos, hlength, -⟩ := exists_scan_of_render h
    exact (eq_written_iff h).2 ((scan_of_unclosed hi pos).2 hlength)

/-- A queue with a payload that closes its own item. -/
def cutShort : Queue := ⟨[(⟨5, 0⟩, .written "a</Item>b")], List.pairwise_singleton ..⟩

/-- The payload is cut there, and what is read is another queue of as many items. -/
theorem integrity_fails :
    empty.pushAt 5 (.written "a</Item>b") = .ok (⟨5, 0⟩, cutShort) ∧
      ∃ r, parse cutShort.render = .ok r ∧ r ≠ cutShort.written ∧
        r.items.map (fun item => (item.1, item.2.text)) = [(⟨5, 0⟩, "a")] := by
  have hplace : placeIn ⟨5, 0⟩ (.written "a</Item>b") empty.items = some (⟨5, 0⟩, cutShort.items) := rfl
  have hread : (parse cutShort.render).toOption.map
      (fun r => r.items.map fun item => (item.1, item.2.text)) = some [(⟨5, 0⟩, "a")] := by
    decide +kernel
  refine ⟨place_eq_ok hplace, ?_⟩
  cases hparse : parse cutShort.render with
  | error e =>
    rw [hparse] at hread
    cases hread
  | ok r =>
    rw [hparse] at hread
    have htexts := Option.some.inj hread
    refine ⟨r, rfl, ?_, htexts⟩
    rintro rfl
    exact absurd htexts (by decide +kernel)

end Lockstep.Queue
