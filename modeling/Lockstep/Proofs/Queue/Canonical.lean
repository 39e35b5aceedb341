import Mathlib.Control.Monad.Basic
import Lockstep.Barrier.Hub
import Lockstep.Proofs.Queue.Items

/- What is read as a queue is written and read again without a change.

   1. `written` is a queue with the text of each payload in place of the payload. A queue of payloads
      whose texts are content is read back as that (`parse_render`).
   2. `parse` gives only such queues: the body of every item it finds is content
      (`isContent_of_mem_scan`), and placing them only moves their stamps (`isWritten_of_parse`).
   3. So the text of a queue that was read is a fixed point, and a hub that could read the queues of
      its peers can read what it makes of them exactly when it could read its own
      (`parse_render_of_parse`). Its own queue was not read from any text, so this can fail
      (`accepted_unreadable`). -/
namespace Lockstep.Queue
open Text Markup

theorem rising_written {items : List Event} (h : Rising items) :
    Rising (items.map fun item => (item.1, .written item.2.text)) := by
  rw [Rising, List.pairwise_map]
  exact h

/-- The queue with each payload replaced by its text. -/
def written (q : Queue) : Queue :=
  ⟨q.items.map fun item => (item.1, .written item.2.text), rising_written q.rising⟩

@[simp] theorem size_written (q : Queue) : q.written.size = q.size := by simp [size, written]

@[simp] theorem render_written (q : Queue) : q.written.render = q.render := by
  have hitems : q.written.items.flatMap itemChars = q.items.flatMap itemChars := by
    rw [written, List.flatMap_map]
    rfl
  rw [render, render, chars, chars, hitems, size_written]

/-- Every payload of a queue can stand between the tags of an item. -/
def Readable (q : Queue) : Prop := ∀ item ∈ q.items, IsContent 1 item.2.text.toList

/-! ## The text of a queue is read -/

/-- The part of a queue's tag behind its name. -/
def headerChars (count : List Char) : List Char :=
  ' ' :: (countKey ++ ['=', '"']) ++ count ++ ['"']

theorem of_mem_naturalChars {n : Nat} {c : Char} (h : c ∈ Numeral.naturalChars n) :
    c ≠ '"' ∧ c ≠ '>' ∧ c ≠ '&' := by
  have hd := Numeral.isDigit_of_mem_naturalChars h
  refine ⟨?_, ?_, ?_⟩ <;> rintro rfl <;> exact absurd hd (by decide)

theorem not_bracket_of_mem_headerChars {n : Nat} {c : Char}
    (h : c ∈ headerChars (Numeral.naturalChars n)) : c ≠ '>' := by
  simp only [headerChars, List.mem_append, List.mem_singleton] at h
  rcases h with (h | h) | rfl
  · have hall : (' ' :: (countKey ++ ['=', '"'])).all (· != '>') = true := by decide
    exact bne_iff_ne.1 (List.all_eq_true.1 hall c h)
  · exact (of_mem_naturalChars h).2.1
  · decide

/-- The one bracket that closes the tag of a queue is its last character. -/
theorem not_bracket_of_mem_tag {n : Nat} {c : Char}
    (h : c ∈ ('<' :: queueTag) ++ headerChars (Numeral.naturalChars n)) : c ≠ '>' := by
  rcases List.mem_append.1 h with h | h
  · have hall : ('<' :: queueTag).all (· != '>') = true := by decide
    exact bne_iff_ne.1 (List.all_eq_true.1 hall c h)
  · exact not_bracket_of_mem_headerChars h

theorem tagChars_append_eq (n : Nat) (behind : List Char) :
    tagChars queueTag countKey (Numeral.naturalChars n) ++ behind =
      ('<' :: queueTag) ++ (headerChars (Numeral.naturalChars n) ++ '>' :: behind) := by
  simp [tagChars, headerChars]

theorem chars_eq_tagChars (q : Queue) :
    q.chars = tagChars queueTag countKey (Numeral.naturalChars q.size) ++
      (q.items.flatMap itemChars ++ closeChars queueTag) := by
  rw [chars, List.append_assoc]

/-- The tag of a queue announces the digits of its count, whatever follows it. -/
theorem header?_tagChars (n : Nat) (behind : List Char) :
    header? (String.ofList (tagChars queueTag countKey (Numeral.naturalChars n) ++ behind)) =
      Numeral.natural? (2 ^ 64) (Numeral.naturalChars n) := by
  have hblank : StopsBy isBlank (('<' :: queueTag) ++ (headerChars (Numeral.naturalChars n) ++
    '>' :: behind)) := (stopsBy_cons isBlank '<' _).2 (by decide)
  have hdrop := dropPattern?_append ('<' :: queueTag) (headerChars (Numeral.naturalChars n) ++
    '>' :: behind)
  have hfirst := cutFirst?_append (headerChars (Numeral.naturalChars n))
    (fun c hc => not_bracket_of_mem_headerChars hc) behind
  have hcut : cutPattern? (countKey ++ ['=', '"']) (headerChars (Numeral.naturalChars n)) =
      some ([' '], Numeral.naturalChars n ++ ['"']) := rfl
  have hquote := cutFirst?_append (Numeral.naturalChars n)
    (fun c hc => (of_mem_naturalChars hc).1) []
  have hstrip : stripBy isBlank (Numeral.naturalChars n) = Numeral.naturalChars n :=
    Binary32.stripBy_isBlank_of_isNumeral
      (Binary32.isNumeral_of_isDigits (Binary32.isDigits_naturalChars n))
  rw [header?, String.toList_ofList, tagChars_append_eq, dropWhile_eq_self hblank, hdrop]
  simp only [hfirst, hcut, hquote, hstrip]

/-- A reading goes on behind the tag of a queue. -/
theorem past?_tagChars (n : Nat) (behind : List Char) :
    ∃ pos, (Cursor.start (String.ofList
      (tagChars queueTag countKey (Numeral.naturalChars n) ++ behind))).past? ['>'] =
        some ⟨pos, behind⟩ := by
  have hcut := cutPattern?_singleton (fun c hc => not_bracket_of_mem_tag (n := n) hc) behind
  rw [List.append_assoc, ← tagChars_append_eq] at hcut
  rw [Cursor.start, String.toList_ofList, Cursor.past?, hcut]
  exact ⟨_, rfl⟩

/-- A text that starts with a tag is not blank. -/
theorem isBlankText_tag (behind : List Char) :
    isBlankText (String.ofList ('<' :: behind)) = false := by
  rw [isBlankText, String.toList_ofList]
  rfl

/-- The header of a rendered queue announces the digits of its size. -/
theorem header?_render_eq (q : Queue) :
    header? q.render = Numeral.natural? (2 ^ 64) (Numeral.naturalChars q.size) := by
  rw [render, chars_eq_tagChars, header?_tagChars]

/-- Behind the tag of a rendered queue stand its items. -/
theorem past?_render (q : Queue) : ∃ pos, (Cursor.start q.render).past? ['>'] =
    some ⟨pos, q.items.flatMap itemChars ++ closeChars queueTag⟩ := by
  rw [render, chars_eq_tagChars]
  exact past?_tagChars q.size _

theorem isBlankText_render (q : Queue) : isBlankText q.render = false := by
  rw [render, chars_eq_tagChars]
  exact isBlankText_tag _

/-- Events of rising stamps that are found behind the tag of a queue are what is read, if there are as
    many as it announces. -/
theorem parse_tagChars {n : Nat} (hn : n < 2 ^ 64) {items : List Event} (hi : Rising items)
    {behind : List Char} (hscan : ∀ pos, scan ⟨pos, behind⟩ =
      (items.map (fun item => (item.1, item.2.text)), none)) :
    parse (String.ofList (tagChars queueTag countKey (Numeral.naturalChars n) ++ behind)) =
      if items.length = n then .ok (written ⟨items, hi⟩) else .error (.corrupted n items.length) := by
  obtain ⟨pos, hpast⟩ := past?_tagChars n behind
  have hblank : isBlankText (String.ofList
      (tagChars queueTag countKey (Numeral.naturalChars n) ++ behind)) = false :=
    isBlankText_tag _
  have hrising : Rising ((empty : Queue).items ++ (written ⟨items, hi⟩).items) := rising_written hi
  have hplace : empty.placeAll (items.map fun item => (item.1, .written item.2.text)) =
      .ok (written ⟨items, hi⟩) :=
    placeAll_of_rising hrising
  simp only [parse, hblank, Bool.false_eq_true, if_false, header?_tagChars,
    Numeral.natural?_naturalChars hn, hpast, hscan, List.map_map, Function.comp_def, hplace,
    List.length_map]

/-- A queue of readable payloads is read back from its text. -/
theorem parse_render {q : Queue} (h : q.Readable) (hs : q.size < 2 ^ 64) :
    parse q.render = .ok q.written := by
  rw [render, chars_eq_tagChars, parse_tagChars hs q.rising (scan_items h)]
  exact if_pos rfl

/-! ## What is read is readable -/

/-- The body of an item that was found is content. -/
theorem isContent_of_mem_scan {c : Cursor} {item : Stamp × String} (h : item ∈ (scan c).1) :
    IsContent 1 item.2.toList := by
  fun_induction scan c with
  | case1 => cases h
  | case2 => cases h
  | case3 => cases h
  | case4 c here _ e after he _ _ s _ items problem hrest ih =>
    obtain ⟨u, hu, helement, -⟩ := exists_element he
    rcases List.mem_cons.1 h with rfl | h
    · have := helement.isContent_body after.rest
      rw [← hu] at this
      simpa using this
    · exact ih (by rw [hrest]; exact h)
  | case5 c here _ e after he _ ih => exact ih h

/-- A queue whose payloads are texts already. -/
def IsWritten (q : Queue) : Prop := ∀ item ∈ q.items, ∃ text, item.2 = .written text

theorem written_eq_self {q : Queue} (h : q.IsWritten) : q.written = q := by
  apply Queue.ext
  show q.items.map (fun item => (item.1, Payload.written item.2.text)) = q.items
  rw [List.map_congr_left (g := id), List.map_id]
  intro item hitem
  obtain ⟨text, ht⟩ := h item hitem
  obtain ⟨s, p⟩ := item
  subst ht
  rfl

theorem lt_of_header? {text : String} {n : Nat} (h : header? text = some n) : n < 2 ^ 64 := by
  unfold header? at h
  split at h
  · cases h
  · split at h
    · cases h
    · split at h
      · cases h
      · split at h
        · cases h
        · exact Numeral.lt_of_natural?_eq_some h

/-- What a reading ends with: as many items as announced, placed in an empty queue. -/
theorem exists_scan_of_parse {text : String} {q : Queue} (h : parse text = .ok q) :
    q = empty ∨ ∃ c, empty.placeAll ((scan c).1.map fun item => (item.1, .written item.2)) = .ok q ∧
      (scan c).1.length < 2 ^ 64 := by
  unfold parse at h
  split at h
  · cases h
    exact .inl rfl
  · split at h
    · rename_i expected c hheader hpast
      simp only at h
      split at h
      · cases h
      · rename_i q' hplace
        split at h
        · cases h
        · split at h
          · rename_i hlength
            cases h
            exact .inr ⟨c, hplace, hlength ▸ lt_of_header? hheader⟩
          · cases h
    · cases h

/-- Every payload of a queue that was read is a text, and that text is content. -/
theorem exists_of_mem_of_parse {text : String} {q : Queue} (h : parse text = .ok q) {item : Event}
    (hitem : item ∈ q.items) : ∃ body, item.2 = .written body ∧ IsContent 1 body.toList := by
  rcases exists_scan_of_parse h with rfl | ⟨c, hplace, -⟩
  · cases hitem
  · have hmem := (perm_of_placeAll hplace).subset (List.mem_map_of_mem hitem)
    rw [show empty.items = [] from rfl, List.map_nil, List.nil_append, List.map_map] at hmem
    obtain ⟨found, hfound, hp⟩ := List.mem_map.1 hmem
    exact ⟨found.2, hp.symm, isContent_of_mem_scan hfound⟩

theorem readable_of_parse {text : String} {q : Queue} (h : parse text = .ok q) : q.Readable := by
  intro item hitem
  obtain ⟨body, hp, hbody⟩ := exists_of_mem_of_parse h hitem
  rw [hp]
  exact hbody

theorem isWritten_of_parse {text : String} {q : Queue} (h : parse text = .ok q) : q.IsWritten := by
  intro item hitem
  obtain ⟨body, hp, -⟩ := exists_of_mem_of_parse h hitem
  exact ⟨body, hp⟩

theorem size_lt_of_parse {text : String} {q : Queue} (h : parse text = .ok q) :
    q.size < 2 ^ 64 := by
  rcases exists_scan_of_parse h with rfl | ⟨c, hplace, hlength⟩
  · decide
  · have hperm := (perm_of_placeAll hplace).length_eq
    simp only [List.length_append, List.length_map] at hperm
    rw [show empty.items.length = 0 from rfl, Nat.zero_add] at hperm
    rw [size, hperm]
    exact hlength

/-- A queue is read back from its text exactly when each payload is readable. -/
theorem parse_render_iff {q : Queue} (hs : q.size < 2 ^ 64) :
    parse q.render = .ok q.written ↔ q.Readable := by
  refine ⟨fun h item hitem => ?_, fun h => parse_render h hs⟩
  exact readable_of_parse h (item.1, .written item.2.text) (List.mem_map_of_mem hitem)

/-! ## Merging -/

/-- A payload of a merged queue comes from one of the two. -/
theorem readable_merge {q other merged : Queue} (hq : q.Readable) (ho : other.Readable)
    (h : q.merge other = .ok merged) : merged.Readable := by
  intro item hitem
  have hmem := (perm_of_placeAll h).subset (List.mem_map_of_mem hitem)
  rcases List.mem_append.1 hmem with hmem | hmem
  · obtain ⟨found, hfound, hp⟩ := List.mem_map.1 hmem
    rw [← hp]
    exact hq found hfound
  · rw [List.map_map] at hmem
    obtain ⟨found, hfound, hp⟩ := List.mem_map.1 hmem
    rw [← hp]
    exact ho found hfound

theorem readable_mergeText {q merged : Queue} {text : String} (hq : q.Readable)
    (h : q.mergeText text = .ok merged) : merged.Readable := by
  unfold mergeText at h
  split at h
  · cases h
  · rename_i other hother
    exact readable_merge hq (readable_of_parse hother) h

theorem readable_mergeFrames {q merged : Queue} {frames : List Frame} (hq : q.Readable)
    (h : Hub.mergeFrames q frames = .ok merged) : merged.Readable := by
  fun_induction Hub.mergeFrames q frames with
  | case1 q =>
    cases h
    exact hq
  | case2 => cases h
  | case3 q text frames q' hmerge ih => exact ih (readable_mergeText hq hmerge) h
  | case4 q f frames _ ih => exact ih hq h

/-- Merging adds payloads and takes none away. -/
theorem exists_perm_of_mergeFrames {q merged : Queue} {frames : List Frame}
    (h : Hub.mergeFrames q frames = .ok merged) :
    ∃ more, (merged.items.map Prod.snd).Perm (q.items.map Prod.snd ++ more) := by
  fun_induction Hub.mergeFrames q frames with
  | case1 q =>
    cases h
    exact ⟨[], by rw [List.append_nil]⟩
  | case2 => cases h
  | case3 q text frames q' hmerge ih =>
    obtain ⟨more, hmore⟩ := ih h
    unfold mergeText at hmerge
    split at hmerge
    · cases hmerge
    · exact ⟨_, hmore.trans (((perm_of_placeAll hmerge).append_right more).trans
        (.of_eq (List.append_assoc ..)))⟩
  | case4 q f frames _ ih => exact ih h

theorem readable_of_mergeFrames {q merged : Queue} {frames : List Frame} (hm : merged.Readable)
    (h : Hub.mergeFrames q frames = .ok merged) : q.Readable := by
  intro item hitem
  obtain ⟨more, hmore⟩ := exists_perm_of_mergeFrames h
  have hmem := hmore.symm.subset (List.mem_append_left more (List.mem_map_of_mem hitem))
  obtain ⟨found, hfound, hp⟩ := List.mem_map.1 hmem
  rw [← hp]
  exact hm found hfound

theorem size_le_of_mergeFrames {q merged : Queue} {frames : List Frame}
    (h : Hub.mergeFrames q frames = .ok merged) : q.size ≤ merged.size := by
  obtain ⟨more, hmore⟩ := exists_perm_of_mergeFrames h
  have hlength := hmore.length_eq
  rw [List.length_append, List.length_map, List.length_map] at hlength
  show q.items.length ≤ merged.items.length
  omega

/-- What is read as a queue is a fixed point of writing and reading: the queue comes back with the
    same stamps and the same texts, and is written as it was. So once a hub could read the queues of
    all its peers, it can read the merged queue exactly when it could read its own. -/
theorem parse_render_of_parse :
    (∀ {text : String} {q : Queue}, parse text = .ok q → parse q.render = .ok q) ∧
      ∀ {own merged : Queue} {frames : List Frame}, Hub.mergeFrames own frames = .ok merged →
        merged.size < 2 ^ 64 →
        (parse merged.render = .ok merged.written ↔ parse own.render = .ok own.written) := by
  constructor
  · intro text q h
    have hread := parse_render (readable_of_parse h) (size_lt_of_parse h)
    rwa [written_eq_self (isWritten_of_parse h)] at hread
  · intro own merged frames hmerge hs
    have hsize := Nat.lt_of_le_of_lt (size_le_of_mergeFrames hmerge) hs
    rw [parse_render_iff hs, parse_render_iff hsize]
    exact ⟨fun h => readable_of_mergeFrames h hmerge, fun h => readable_mergeFrames h hmerge⟩

/-- A text with stamps out of order and twice, an item within an item, one that closes itself, and
    other text between them. -/
def unordered : String :=
  "<Queue num='0' num=\"3\">junk<Item timeStamp=\"7-001\"><a b='1'/><Item>x</Item ></Item>" ++
    "<!-- c --><Item timeStamp='5-000'/><Item timeStamp=' 7-1 '><!-->&amp;</Item></Queue>"

theorem parse_render_unordered :
    ∃ q merged, parse unordered = .ok q ∧ q.items.map Prod.fst = [⟨5, 0⟩, ⟨7, 1⟩, ⟨7, 2⟩] ∧
      parse q.render = .ok q ∧ Hub.mergeFrames q [.events unordered] = .ok merged ∧
      merged.size = 6 ∧ parse merged.render = .ok merged.written := by
  have hstamps : (parse unordered).toOption.map (·.items.map Prod.fst) =
      some [⟨5, 0⟩, ⟨7, 1⟩, ⟨7, 2⟩] := by decide +kernel
  have hsize : ((parse unordered).bind fun q =>
      Hub.mergeFrames q [.events unordered]).toOption.map size = some 6 := by decide +kernel
  cases hq : parse unordered with
  | error e =>
    rw [hq] at hstamps
    cases hstamps
  | ok q =>
    rw [hq] at hstamps hsize
    cases hm : Hub.mergeFrames q [.events unordered] with
    | error e =>
      rw [Except.bind, hm] at hsize
      cases hsize
    | ok merged =>
      rw [Except.bind, hm] at hsize
      have hread := parse_render_of_parse.1 hq
      have hown : parse q.render = .ok q.written := by
        rw [hread, written_eq_self (isWritten_of_parse hq)]
      have hsix : merged.size = 6 := Option.some.inj hsize
      exact ⟨q, merged, rfl, Option.some.inj hstamps, hread, hm, hsix,
        (parse_render_of_parse.2 hm (by rw [hsix]; decide)).2 hown⟩

/-- A queue of one event, whose payload opens an element and does not close it. -/
def unclosed : Queue := ⟨[(⟨5, 0⟩, .written "<a>")], List.pairwise_singleton ..⟩

/-- The text of a queue of one event. -/
def single : String := "<Queue num=\"1\"><Item timeStamp=\"7-000\">b</Item></Queue>"

/-- A hub that accepts the queues of all its peers need not be able to read the merged queue, and then
    fails the barrier: an event of its own can be the one that is not read back. -/
theorem accepted_unreadable :
    empty.pushAt 5 (.written "<a>") = .ok (⟨5, 0⟩, unclosed) ∧
      (∃ merged, Hub.mergeFrames unclosed [.events single] = .ok merged ∧
        parse merged.render = .error (.corrupted 2 0)) ∧
      Hub.reply unclosed [.events single] = .error (.queue (.corrupted 2 0)) ∧
      ¬ ∀ (own merged : Queue) (frames : List Frame), Hub.mergeFrames own frames = .ok merged →
        ∃ result, parse merged.render = .ok result := by
  have haccepted : (Hub.mergeFrames unclosed [.events single]).map size = .ok 2 := by decide +kernel
  have hread : ((Hub.mergeFrames unclosed [.events single]).bind fun merged =>
      parse merged.render).map size = .error (.corrupted 2 0) := by decide +kernel
  cases hm : Hub.mergeFrames unclosed [.events single] with
  | error e =>
    rw [hm] at haccepted
    cases haccepted
  | ok merged =>
    rw [hm] at hread
    cases hparse : parse merged.render with
    | ok q =>
      rw [Except.bind, hparse] at hread
      cases hread
    | error e =>
      rw [Except.bind, hparse] at hread
      cases hread
      refine ⟨rfl, ⟨merged, rfl, hparse⟩, ?_, ?_⟩
      · simp only [Hub.reply, hm, hparse]
      · intro hall
        obtain ⟨result, hresult⟩ := hall unclosed merged [.events single] hm
        cases hparse.symm.trans hresult

end Lockstep.Queue
