import Lockstep.Proofs.Queue.Canonical

/- What reading makes of the beginning of a queue's text.

   1. An element that is cut short is no element (`IsElement.readElement_cut`): the parser could go on
      behind what it took for one, and elements are read in one way only.
   2. So an item that is cut short is not found, and the search ends there (`scan_cut_item`). No item
      begins in the closing tag of a queue either (`scan_cut_closing`).
   3. A text that ends behind some items has these and a header that announces all of them. Where the
      header itself is cut there is no bracket that closes it (`header?_of_not_mem`). So a cut is
      noticed unless it leaves every item whole (`parse_truncated`). -/
namespace Lockstep

namespace Markup

/-- An element that is cut short cannot be read. -/
theorem IsElement.readElement_cut {pos : Nat} {piece tail : List Char} {e : Element}
    (h : IsElement 0 pos (piece ++ tail) e) (ht : tail ≠ []) :
    ∃ f, Markup.readElement ⟨pos, piece⟩ = .error f := by
  cases hread : Markup.readElement ⟨pos, piece⟩ with
  | error f => exact ⟨f, rfl⟩
  | ok found =>
    -- What was read is an element in front of the whole text too, but that one ends where the text does.
    obtain ⟨e', after⟩ := found
    obtain ⟨u, rfl, helement, -⟩ := exists_element hread
    have hwhole := h.readElement []
    rw [List.append_nil, List.append_assoc, helement.readElement] at hwhole
    have hrest : after.rest ++ tail = [] := congrArg Cursor.rest (Prod.ext_iff.1 (Except.ok.inj hwhole)).2
    exact absurd (List.append_eq_nil_iff.1 hrest).2 ht

end Markup

namespace Queue
open Text Markup

/-! ## Items that are cut short -/

/-- Where no item begins there is none. -/
theorem scan_of_not_infix {cs : List Char} (h : ¬ ('<' :: itemTag) <:+: cs) (pos : Nat) :
    scan ⟨pos, cs⟩ = ([], none) := by
  rw [scan]
  split
  · rfl
  · rename_i here hf
    obtain ⟨⟨before, after⟩, hcut, -⟩ := Option.map_eq_some_iff.1 hf
    exact absurd ⟨before, after, (cutPattern?_eq_some hcut).symm⟩ h

/-- An item that is cut short is not found, and ends the search. -/
theorem scan_cut_item {item : Event} (h : IsContent 1 item.2.text.toList) {piece tail : List Char}
    (hp : itemChars item = piece ++ tail) (ht : tail ≠ []) (pos : Nat) :
    scan ⟨pos, piece⟩ = ([], none) := by
  obtain ⟨e, helement, -⟩ :=
    exists_item (s := item.1) h (isCloseTag_closeChars isName_itemTag) pos
  have hitem : tagChars itemTag stampKey item.1.chars ++
      (item.2.text.toList ++ closeChars itemTag) = piece ++ tail := by
    rw [← hp, itemChars, List.append_assoc]
  rw [hitem] at helement
  obtain ⟨f, hread⟩ := helement.readElement_cut ht
  by_cases hstart : ('<' :: itemTag) <+: piece
  · obtain ⟨behind, rfl⟩ := hstart
    refine scan_of_readElement ?_ hread
    simp only [Cursor.find?, cutPattern?_append, Option.map_some, byteSize_nil, Nat.add_zero]
  · -- A piece that does not even hold the beginning of its item is shorter than that.
    refine scan_of_not_infix (fun hinfix => hstart ?_) pos
    have hbegin : ('<' :: itemTag) <+: itemChars item := ⟨_, by
      simp only [itemChars, tagChars, List.cons_append, List.append_assoc]
      rfl⟩
    exact List.prefix_of_prefix_length_le hbegin ⟨tail, hp.symm⟩ hinfix.length_le

/-- No item begins in the closing tag of a queue. -/
theorem scan_cut_closing {piece tail : List Char} (h : closeChars queueTag = piece ++ tail)
    (pos : Nat) : scan ⟨pos, piece⟩ = ([], none) := by
  have hnone : ¬ ('<' :: itemTag) <:+: closeChars queueTag := by decide
  refine scan_of_not_infix (fun hinfix => hnone ?_) pos
  exact hinfix.trans ⟨[], tail, h.symm⟩

theorem scan_items_append {items : List Event}
    (h : ∀ item ∈ items, IsContent 1 item.2.text.toList) {piece : List Char}
    (hp : ∀ pos, scan ⟨pos, piece⟩ = ([], none)) (pos : Nat) :
    scan ⟨pos, items.flatMap itemChars ++ piece⟩ =
      (items.map (fun item => (item.1, item.2.text)), none) := by
  obtain ⟨pos', hscan⟩ := scan_append h pos piece
  rw [hscan, hp, List.append_nil]

/-- A text of two parts is cut behind the first or short of its end. -/
theorem cut_append {front back cut rest : List Char} (h : front ++ back = cut ++ rest) :
    (∃ piece, cut = front ++ piece ∧ back = piece ++ rest) ∨
      ∃ tail, tail ≠ [] ∧ front = cut ++ tail ∧ rest = tail ++ back := by
  rcases List.append_eq_append_iff.1 h with hbehind | ⟨tail, hfront, hrest⟩
  · exact .inl hbehind
  · by_cases ht : tail = []
    · subst ht
      rw [List.append_nil] at hfront
      exact .inl ⟨[], by rw [hfront, List.append_nil], hrest.symm⟩
    · exact .inr ⟨tail, ht, hfront, hrest⟩

/-- Where a text of items and a closing tag can be cut: within the closing tag, or within an item. -/
theorem exists_cut {items : List Event} {close cut rest : List Char}
    (h : items.flatMap itemChars ++ close = cut ++ rest) :
    (∃ piece, cut = items.flatMap itemChars ++ piece ∧ close = piece ++ rest) ∨
      ∃ front item back piece tail, items = front ++ item :: back ∧
        cut = front.flatMap itemChars ++ piece ∧ itemChars item = piece ++ tail ∧ tail ≠ [] ∧
        rest = tail ++ (back.flatMap itemChars ++ close) := by
  induction items generalizing cut with
  | nil => exact .inl ⟨cut, rfl, h⟩
  | cons item items ih =>
    rw [List.flatMap_cons, List.append_assoc] at h
    rcases cut_append h with ⟨cut', rfl, hbehind⟩ | ⟨tail, ht, hitem, hrest⟩
    · rcases ih hbehind with ⟨piece, rfl, hclose⟩ |
        ⟨front, last, back, piece, tail, rfl, rfl, hlast, ht, hrest⟩
      · exact .inl ⟨piece, (List.append_assoc ..).symm, hclose⟩
      · exact .inr ⟨item :: front, last, back, piece, tail, rfl, (List.append_assoc ..).symm,
          hlast, ht, hrest⟩
    · exact .inr ⟨[], item, items, cut, tail, rfl, rfl, hitem, ht, hrest⟩

/-! ## A header that is cut short -/

/-- Without a closing bracket there is no header. -/
theorem header?_of_not_mem {text : String} (h : '>' ∉ text.toList) : header? text = none := by
  unfold header?
  split
  · rfl
  · rename_i behind hdrop
    have hsuffix : behind <:+ text.toList :=
      .trans ⟨_, (dropPattern?_eq_some.1 hdrop).symm⟩ (List.dropWhile_suffix _)
    split
    · rfl
    · rename_i hcut
      rw [cutFirst?_eq_some hcut] at hsuffix
      exact absurd (hsuffix.subset (List.mem_append_right _ List.mem_cons_self)) h

/-- A text without a closing bracket that is not blank is malformed. -/
theorem parse_of_not_mem {text : String} (h : '>' ∉ text.toList) (hb : isBlankText text = false) :
    parse text = .error .malformedHeader := by
  simp only [parse, hb, Bool.false_eq_true, if_false, header?_of_not_mem h]

/-- Where the tag of a queue is cut short there is no closing bracket. -/
theorem not_mem_of_cut_tag {n : Nat} {cut tail : List Char}
    (h : tagChars queueTag countKey (Numeral.naturalChars n) = cut ++ tail) (ht : tail ≠ []) :
    '>' ∉ cut := by
  have htag : tagChars queueTag countKey (Numeral.naturalChars n) =
      ('<' :: queueTag) ++ headerChars (Numeral.naturalChars n) ++ ['>'] := by
    have happend := tagChars_append_eq n []
    rwa [List.append_nil, ← List.append_assoc] at happend
  have hlength : cut.length + tail.length =
      (('<' :: queueTag) ++ headerChars (Numeral.naturalChars n)).length + 1 := by
    rw [← List.length_append, ← h, htag]
    exact List.length_append
  have hpos : 0 < tail.length := List.length_pos_iff.2 ht
  have hbegin : cut <+: ('<' :: queueTag) ++ headerChars (Numeral.naturalChars n) :=
    List.prefix_of_prefix_length_le ⟨tail, h.symm⟩ ⟨['>'], htag.symm⟩ (by omega)
  exact fun hmem => not_bracket_of_mem_tag (hbegin.subset hmem) rfl

/-- The beginning of a queue's text that is not empty is not blank. -/
theorem isBlankText_cut {q : Queue} {cut rest : List Char} (h : q.chars = cut ++ rest)
    (hcut : cut ≠ []) : isBlankText (String.ofList cut) = false := by
  obtain ⟨c, behind, rfl⟩ := List.exists_cons_of_ne_nil hcut
  have hfirst : c = '<' := (List.cons.inj h).1.symm
  rw [hfirst]
  exact isBlankText_tag behind

/-! ## The text of a queue that is cut short -/

/-- Where a queue's text can be cut. -/
theorem exists_cut_chars {q : Queue} {cut rest : List Char} (h : q.chars = cut ++ rest) :
    ('>' ∉ cut ∧ ∃ tail, tail ≠ [] ∧
      rest = tail ++ (q.items.flatMap itemChars ++ closeChars queueTag)) ∨
    (∃ piece, cut = tagChars queueTag countKey (Numeral.naturalChars q.size) ++
      (q.items.flatMap itemChars ++ piece) ∧ closeChars queueTag = piece ++ rest) ∨
    ∃ front item back piece tail, q.items = front ++ item :: back ∧
      cut = tagChars queueTag countKey (Numeral.naturalChars q.size) ++
        (front.flatMap itemChars ++ piece) ∧
      itemChars item = piece ++ tail ∧ tail ≠ [] ∧
      rest = tail ++ (back.flatMap itemChars ++ closeChars queueTag) := by
  rw [chars_eq_tagChars] at h
  rcases cut_append h with ⟨cut', rfl, hbehind⟩ | ⟨tail, ht, htag, hrest⟩
  · rcases exists_cut hbehind with ⟨piece, rfl, hclose⟩ |
      ⟨front, item, back, piece, tail, hitems, rfl, hitem, ht, hrest⟩
    · exact .inr (.inl ⟨piece, rfl, hclose⟩)
    · exact .inr (.inr ⟨front, item, back, piece, tail, hitems, rfl, hitem, ht, hrest⟩)
  · exact .inl ⟨not_mem_of_cut_tag htag ht, tail, ht, hrest⟩

theorem not_suffix_of_append {tail between close : List Char} (ht : tail ≠ []) :
    ¬ tail ++ (between ++ close) <:+ close := by
  intro hsuffix
  have hlength := hsuffix.length_le
  rw [List.length_append, List.length_append] at hlength
  have hpos : 0 < tail.length := List.length_pos_iff.2 ht
  omega

/-- The beginning of a queue's text is noticed to be one. If it ends within the closing tag or right
    before it, the queue is read as it was. If it ends within the header, that is malformed. Otherwise
    it ends within an item, and the number of those before it is not the number announced. -/
theorem parse_truncated {q : Queue} (h : parse q.render = .ok q.written) {cut rest : List Char}
    (hq : q.chars = cut ++ rest) (hcut : cut ≠ []) :
    (rest <:+ closeChars queueTag → parse (String.ofList cut) = .ok q.written) ∧
      ('>' ∉ cut → parse (String.ofList cut) = .error .malformedHeader) ∧
      (¬ rest <:+ closeChars queueTag → '>' ∈ cut →
        ∃ front item back piece tail, q.items = front ++ item :: back ∧
          cut = tagChars queueTag countKey (Numeral.naturalChars q.size) ++
            (front.flatMap itemChars ++ piece) ∧
          itemChars item = piece ++ tail ∧ tail ≠ [] ∧
          parse (String.ofList cut) = .error (.corrupted q.size front.length)) := by
  have hsize : q.size < 2 ^ 64 := size_written q ▸ size_lt_of_parse h
  have hread : q.Readable := (parse_render_iff hsize).1 h
  have hmalformed : '>' ∉ cut → parse (String.ofList cut) = .error .malformedHeader := fun hnone =>
    parse_of_not_mem (by rwa [String.toList_ofList]) (isBlankText_cut hq hcut)
  rcases exists_cut_chars hq with ⟨hnone, tail, ht, rfl⟩ | ⟨piece, rfl, hclose⟩ |
    ⟨front, item, back, piece, tail, hitems, rfl, hitem, ht, rfl⟩
  · exact ⟨fun hsuffix => absurd hsuffix (not_suffix_of_append ht), hmalformed,
      fun _ hmem => absurd hmem hnone⟩
  · refine ⟨fun _ => ?_, hmalformed, fun hrest => absurd ⟨piece, hclose.symm⟩ hrest⟩
    rw [parse_tagChars hsize q.rising (scan_items_append hread (scan_cut_closing hclose))]
    exact if_pos rfl
  · refine ⟨fun hsuffix => absurd hsuffix (not_suffix_of_append ht), hmalformed, fun _ _ =>
      ⟨front, item, back, piece, tail, hitems, rfl, hitem, ht, ?_⟩⟩
    have hfront : Rising front := (List.pairwise_append.1 (hitems ▸ q.rising)).1
    have hmem : item ∈ q.items := hitems ▸ List.mem_append_right front List.mem_cons_self
    have hfew : front.length ≠ q.size := by
      rw [size, hitems, List.length_append, List.length_cons]
      omega
    rw [parse_tagChars hsize hfront (scan_items_append
      (fun i hi => hread i (hitems ▸ List.mem_append_left _ hi))
      (scan_cut_item (hread item hmem) hitem ht))]
    exact if_neg hfew

/-- A queue of texts with the stamps and texts of another is that other, written. -/
theorem eq_written_of_texts {q r : Queue} (hr : r.IsWritten)
    (h : r.items.map (fun item => (item.1, item.2.text)) =
      q.items.map fun item => (item.1, item.2.text)) : r = q.written := by
  rw [← written_eq_self hr]
  apply Queue.ext
  have hmap := congrArg (List.map fun found => (found.1, Payload.written found.2)) h
  rwa [List.map_map, List.map_map] at hmap

/-- A queue whose first payload holds an item, and whose second a comment and an entity. -/
def nested : Queue :=
  ⟨[(⟨5, 0⟩, .written "<Item timeStamp=\"5-000\">a</Item>"), (⟨7, 1⟩, .written "<!-- > -->b&lt;")], by
    rw [Rising]
    decide⟩

theorem parse_render_nested : parse nested.render = .ok nested.written := by
  have hread : (parse nested.render).toOption.map
      (fun r => r.items.map fun item => (item.1, item.2.text)) =
        some (nested.items.map fun item => (item.1, item.2.text)) := by
    decide +kernel
  obtain ⟨r, hparse, htexts⟩ := exists_ok_of_toOption (parse nested.render) hread
  rw [hparse, eq_written_of_texts (isWritten_of_parse hparse) htexts]

/-- It is read where the cut is in the closing tag, and not where it is in the header or behind the
    item within the first payload. -/
theorem parse_truncated_nested :
    parse nested.render = .ok nested.written ∧
      parse (String.ofList (nested.chars.take 131)) = .ok nested.written ∧
      parse (String.ofList (nested.chars.take 14)) = .error .malformedHeader ∧
      ∃ front item back, nested.items = front ++ item :: back ∧
        parse (String.ofList (nested.chars.take 71)) = .error (.corrupted 2 front.length) := by
  have hcut : ∀ n, nested.chars = nested.chars.take n ++ nested.chars.drop n := fun n =>
    (List.take_append_drop n nested.chars).symm
  have hclosing := parse_truncated parse_render_nested (hcut 131) (by decide +kernel)
  have hheader := parse_truncated parse_render_nested (hcut 14) (by decide +kernel)
  have hitem := parse_truncated parse_render_nested (hcut 71) (by decide +kernel)
  obtain ⟨front, item, back, -, -, hitems, -, -, -, hparse⟩ :=
    hitem.2.2 (by decide +kernel) (by decide +kernel)
  exact ⟨parse_render_nested, hclosing.1 (by decide +kernel), hheader.2.1 (by decide +kernel), front,
    item, back, hitems, hparse⟩

end Queue
end Lockstep
