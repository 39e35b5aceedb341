import Lockstep.Proofs.Markup.Document
import Lockstep.Proofs.Markup.Places

/- Reading is local.

   1. What is gone over to read one element is blanks, comments and declarations, and then the element
      (`IsNext`). `readNext` reads an element from a text exactly when such a span stands in front of it, and
      goes on right behind the span (`readNext_iff`). So nothing that follows has a say in what is read.
   2. At a place `n` bytes further on, the same text is read as the same element, with the bodies in it `n`
      bytes further on (`Element.shift`, `Fills.shift`).
   3. Two documents, one behind the other, are a document of the elements of both (`IsDocument.append`). -/
namespace Lockstep.Markup
open Text

/-! ## Elements further on -/

mutual

/-- The element as it is read `n` bytes further on: its body, and those of the elements in it, lie there. -/
def Element.shift (n : Nat) : Element → Element
  | ⟨name, attributes, text, children, bodyStart, bodyEnd⟩ =>
    ⟨name, attributes, text, Element.shiftAll n children, bodyStart + n, bodyEnd + n⟩

/-- `shift` of each element. -/
def Element.shiftAll (n : Nat) : List Element → List Element
  | [] => []
  | e :: es => e.shift n :: Element.shiftAll n es

end

theorem Element.shiftAll_eq_map (n : Nat) (es : List Element) : shiftAll n es = es.map (shift n) := by
  induction es with
  | nil => rfl
  | cons e es ih => rw [shiftAll, ih, List.map_cons]

namespace Open

/-- The open element as it stands `n` bytes further on. -/
def shift (n : Nat) (o : Open) : Open :=
  { o with bodyStart := o.bodyStart + n, children := Element.shiftAll n o.children }

@[simp] theorem shift_ofTag (n : Nat) (tag : Tag) (pos : Nat) :
    (ofTag tag pos).shift n = ofTag tag (pos + n) := rfl

@[simp] theorem shift_addText (n : Nat) (o : Open) (cs : List Char) :
    (o.addText cs).shift n = (o.shift n).addText cs := rfl

@[simp] theorem shift_close (n : Nat) (o : Open) (pos : Nat) :
    (o.close pos).shift n = (o.shift n).close (pos + n) := rfl

@[simp] theorem shift_addChild (n : Nat) (o : Open) (e : Element) :
    (o.addChild e).shift n = (o.shift n).addChild (e.shift n) := by
  simp only [shift, addChild, Element.shiftAll_eq_map, List.map_append, List.map_cons, List.map_nil]

end Open

/-- Content stays content further on, and what it adds lies further on as well. -/
theorem Fills.shift {depth pos : Nat} {u : List Char} {o o' : Open} (h : Fills depth pos u o o') (n : Nat) :
    Fills depth (pos + n) u (o.shift n) (o'.shift n) := by
  induction h with
  | done => exact .done
  | comment hu hs _ ih =>
    rw [Nat.add_right_comm] at ih
    exact .comment hu hs ih
  | text hne hu hs _ ih =>
    rw [Nat.add_right_comm] at ih
    exact .text hne hu hs ih
  | closed hu hs hc hd _ ih =>
    simp only [Open.shift_addChild, Open.shift_close, Open.shift_ofTag, Nat.add_right_comm _ _ n] at ih
    exact .closed hu hs hc hd ih
  | element hu hs hc hd _ hz _ ihw ihv =>
    simp only [Open.shift_ofTag, Nat.add_right_comm _ _ n] at ihw
    simp only [Open.shift_addChild, Open.shift_close, Nat.add_right_comm _ _ n] at ihv
    exact .element hu hs hc hd ihw hz ihv

theorem IsElement.shift {depth pos : Nat} {u : List Char} {e : Element} (h : IsElement depth pos u e)
    (n : Nat) : IsElement depth (pos + n) u (e.shift n) := by
  cases h with
  | closed hu hc =>
    rw [Open.shift_close, Open.shift_ofTag, Nat.add_right_comm]
    exact .closed hu hc
  | around hu hc hw hz =>
    have hbody := hw.shift n
    simp only [Open.shift_ofTag, Nat.add_right_comm _ _ n] at hbody
    rw [Open.shift_close, Nat.add_right_comm, Nat.add_right_comm pos]
    exact .around hu hc hbody hz

/-- An element is an element at any other place. -/
theorem IsElement.exists_at {depth pos : Nat} {u : List Char} {e : Element} (h : IsElement depth pos u e)
    (pos₂ : Nat) : ∃ e₂, IsElement depth pos₂ u e₂ := by
  cases h with
  | closed hu hc => exact ⟨_, .closed hu hc⟩
  | around hu hc hw hz =>
    obtain ⟨inner, hbody⟩ := hw.exists_at (pos₂ + byteSize _) (Open.ofTag _ (pos₂ + byteSize _))
    exact ⟨_, .around hu hc hbody hz⟩

theorem IsDocument.shift {pos : Nat} {cs : List Char} {es : List Element} (h : IsDocument pos cs es)
    (n : Nat) : IsDocument (pos + n) cs (Element.shiftAll n es) := by
  induction h with
  | done hm => exact .done hm
  | element hm he hs hd _ ih =>
    have hfirst := he.shift n
    simp only [Nat.add_right_comm _ _ n] at hfirst ih
    exact .element hm hfirst hs hd ih

/-! ## One document behind another -/

theorem IsMisc.append {m m' : List Char} (h : IsMisc m) (h' : IsMisc m') : IsMisc (m ++ m') := by
  induction h with
  | @blanks gap hg =>
    have hgap : ∀ {gap'}, IsGap gap' → IsGap (gap ++ gap') := fun hg' c hc =>
      (List.mem_append.1 hc).elim (hg c) (hg' c)
    cases h' with
    | blanks hg' => exact .blanks (hgap hg')
    | comment hg' hu hs hv =>
      rw [← List.append_assoc]
      exact .comment (hgap hg') hu hs hv
    | declaration hg' hu hs hv =>
      rw [← List.append_assoc]
      exact .declaration (hgap hg') hu hs hv
  | comment hg hu hs _ ih =>
    rw [List.append_assoc, List.append_assoc]
    exact .comment hg hu hs ih
  | declaration hg hu hs _ ih =>
    rw [List.append_assoc, List.append_assoc]
    exact .declaration hg hu hs ih

/-- More may stand in front of a document. -/
theorem IsDocument.skip {pos : Nat} {m cs : List Char} {es : List Element} (hm : IsMisc m)
    (h : IsDocument (pos + byteSize m) cs es) : IsDocument pos (m ++ cs) es := by
  cases h with
  | done hm' => exact .done (hm.append hm')
  | element hm' he hs hd hv =>
    rw [Nat.add_assoc pos, ← byteSize_append] at he hv
    rw [← List.append_assoc]
    exact .element (hm.append hm') he hs hd hv

theorem IsDocument.append {pos : Nat} {a b : List Char} {es es' : List Element} (ha : IsDocument pos a es)
    (hb : IsDocument (pos + byteSize a) b es') : IsDocument pos (a ++ b) (es ++ es') := by
  induction ha with
  | done hm => exact hb.skip hm
  | element hm he hs hd _ ih =>
    simp only [byteSize_append, ← Nat.add_assoc] at hb
    simp only [List.append_assoc]
    exact .element hm he hs hd (ih hb)

/-! ## One element, and what is gone over to read it -/

/-- What stands in front of an element, and the element. -/
inductive IsNext (pos : Nat) : List Char → Element → Prop
  | intro {m u : List Char} {e : Element} (hm : IsMisc m) (he : IsElement 0 (pos + byteSize m) u e)
      (hs : upcoming u = .opening) (hd : ¬ declarationOpening <+: u) : IsNext pos (m ++ u) e

section
variable {pos : Nat} {cs span : List Char} {e : Element} {after : Cursor}

theorem IsNext.shift (h : IsNext pos span e) (n : Nat) : IsNext (pos + n) span (e.shift n) := by
  obtain ⟨hm, he, hs, hd⟩ := h
  have helement := he.shift n
  rw [Nat.add_right_comm] at helement
  exact .intro hm helement hs hd

theorem IsNext.length_pos (h : IsNext pos span e) : 0 < span.length := by
  obtain ⟨-, he, -, -⟩ := h
  exact List.length_pos_of_mem (List.mem_append_right _ he.bracket_mem)

theorem IsNext.isDocument (h : IsNext pos span e) : IsDocument pos span [e] := by
  obtain ⟨hm, he, hs, hd⟩ := h
  have hdoc := IsDocument.element hm he hs hd (.done (.blanks isGap_nil))
  rwa [List.append_nil] at hdoc

/-- A span with an element is read, whatever follows. -/
theorem IsNext.readNext (h : IsNext pos span e) (rest : List Char) :
    readNext ⟨pos, span ++ rest⟩ = .ok (e, ⟨pos + byteSize span, rest⟩) := by
  obtain ⟨hm, he, hs, hd⟩ := h
  have hskip := hm.skipMisc (he.standing hs hd rest) pos
  have hread := he.readElement rest
  obtain ⟨c, tail, rfl, -⟩ := he.exists_cons
  rw [byteSize_append, ← Nat.add_assoc, List.append_assoc, Markup.readNext, hskip]
  exact hread

/-- What is read stands in a span in front, and is gone on from behind the span. -/
theorem readNext_iff :
    Markup.readNext ⟨pos, cs⟩ = .ok (e, after) ↔
      ∃ span, IsNext pos span e ∧ cs = span ++ after.rest ∧ after.pos = pos + byteSize span := by
  constructor
  · intro h
    unfold Markup.readNext at h
    split at h
    · cases h
    · rename_i here hmisc
      split at h
      · obtain ⟨m, hm, hcs, hhere, hstands⟩ := exists_misc hmisc
        obtain ⟨u, hrest, he, hafter⟩ := exists_element h
        have hpos : here.pos = pos + byteSize m := congrArg Cursor.pos hhere
        have hend : after.pos = here.pos + byteSize u := congrArg Cursor.pos hafter
        rw [hrest] at hstands
        obtain ⟨hs, hd⟩ := hstands.of_isElement he
        rw [hpos] at he
        refine ⟨m ++ u, .intro hm he hs hd, ?_, ?_⟩
        · rw [List.append_assoc, ← hrest]
          exact hcs
        · rw [hend, hpos, byteSize_append, Nat.add_assoc]
      · cases h
  · rintro ⟨span, hspan, rfl, hpos⟩
    rw [hspan.readNext, ← hpos]

/-- At the front of a text, the same span is read as the element that lies `pos` bytes further on here. -/
theorem IsNext.exists_at_front (h : IsNext pos span e) :
    ∃ e₀, IsNext 0 span e₀ ∧ e₀.shift pos = e := by
  have hread := h.readNext []
  obtain ⟨hm, he, hs, hd⟩ := h
  obtain ⟨e₀, he₀⟩ := he.exists_at (0 + byteSize _)
  have hfront := IsNext.intro hm he₀ hs hd
  -- Only one element can be read from the span, so the shifted one is what was read here.
  have hshift := hfront.shift pos
  rw [Nat.zero_add] at hshift
  rw [hshift.readNext] at hread
  cases hread
  exact ⟨e₀, hfront, rfl⟩

/-! ## Texts -/

/-- An element that begins behind a front is read there, whatever the front is and whatever follows. -/
theorem IsNext.parseAt {front span : String} {e : Element} (h : IsNext front.utf8ByteSize span.toList e)
    (tail : String) :
    parseAt (front ++ span ++ tail) front.utf8ByteSize =
      .ok (e, ⟨front.utf8ByteSize + span.utf8ByteSize, tail.toList⟩) := by
  have hplace : Cursor.In (front ++ span ++ tail).toList
      ⟨front.utf8ByteSize, span.toList ++ tail.toList⟩ := by
    refine ⟨front.toList, ?_, (byteSize_toList front).symm⟩
    rw [String.toList_append, String.toList_append, List.append_assoc]
  have hread := h.readNext tail.toList
  rw [byteSize_toList] at hread
  simp only [Markup.parseAt, hplace.forward?_start, hread]

/-- What is read at an offset stands in a span that begins there and ends at the place behind it. -/
theorem exists_of_parseAt {text : String} {offset : Nat} (h : Markup.parseAt text offset = .ok (e, after)) :
    ∃ front span : String, text = front ++ span ++ String.ofList after.rest ∧
      front.utf8ByteSize = offset ∧ after.pos = offset + span.utf8ByteSize ∧
      IsNext offset span.toList e := by
  unfold Markup.parseAt at h
  split at h
  · rename_i c hforward
    obtain ⟨hin, hpos⟩ := Cursor.forward?_start hforward
    obtain ⟨span, hspan, hrest, hafter⟩ := readNext_iff.1 h
    -- The span is not empty, so the offset is not past the end.
    have hsize := hin.pos_add
    have hlength := Nat.lt_of_lt_of_le hspan.length_pos (length_le_byteSize span)
    rw [hrest, byteSize_append] at hsize
    have hoffset : c.pos = offset := by omega
    obtain ⟨front, htext, hfront⟩ := hin
    rw [hrest] at htext
    rw [hoffset] at hspan hfront hafter
    refine ⟨String.ofList front, String.ofList span, ?_, ?_, ?_, ?_⟩
    · rw [← String.ofList_append, ← String.ofList_append, List.append_assoc, ← htext, String.ofList_toList]
    · rw [← byteSize_toList, String.toList_ofList, hfront]
    · rw [← byteSize_toList, String.toList_ofList, hafter]
    · rwa [String.toList_ofList]
  · cases h

end

/-- Reading is local: an element is read from the span between the offset and the place behind it, whatever
    follows that place, and the span alone is read as the same element, with its bodies that much nearer to
    the front. Two texts that are read, one behind the other, are read as the elements of the first and then
    those of the second, with the bodies of these as far on as the first text is long. -/
theorem parse_local :
    (∀ {text : String} {offset : Nat} {e : Element} {after : Cursor}, parseAt text offset = .ok (e, after) →
      ∃ front span : String, text = front ++ span ++ String.ofList after.rest ∧
        front.utf8ByteSize = offset ∧ after.pos = offset + span.utf8ByteSize ∧
        (∀ tail : String, parseAt (front ++ span ++ tail) offset = .ok (e, ⟨after.pos, tail.toList⟩)) ∧
        ∃ e₀ : Element, e₀.shift offset = e ∧
          parseAt span 0 = .ok (e₀, ⟨span.utf8ByteSize, []⟩) ∧ parseFirst span = .ok e₀ ∧
          parseAll span = .ok [e₀]) ∧
    ∀ {a b : String} {es es' : List Element}, parseAll a = .ok es → parseAll b = .ok es' →
      parseAll (a ++ b) = .ok (es ++ es'.map (Element.shift a.utf8ByteSize)) := by
  refine ⟨fun h => ?_, fun {a b es es'} ha hb => ?_⟩
  · obtain ⟨front, span, htext, rfl, hafter, hspan⟩ := exists_of_parseAt h
    obtain ⟨e₀, hfront, hshift⟩ := hspan.exists_at_front
    have halone := hfront.readNext []
    rw [List.append_nil, Nat.zero_add, byteSize_toList] at halone
    refine ⟨front, span, htext, rfl, hafter, fun tail => ?_, e₀, hshift, ?_, ?_, ?_⟩
    · rw [hspan.parseAt, hafter]
    · have hread := @IsNext.parseAt "" span e₀ hfront ""
      rwa [String.empty_append, String.append_empty, String.utf8ByteSize_empty, Nat.zero_add] at hread
    · simp only [parseFirst, Cursor.start, halone]
      rfl
    · exact readAll_iff.2 hfront.isDocument
  · have hfirst : IsDocument 0 a.toList es := readAll_iff.1 ha
    have hsecond : IsDocument 0 b.toList es' := readAll_iff.1 hb
    have hmoved := hsecond.shift a.utf8ByteSize
    rw [← byteSize_toList, Element.shiftAll_eq_map] at hmoved
    have hboth := (hfirst.append hmoved).readAll
    rw [← String.toList_append, byteSize_toList] at hboth
    exact hboth

/-- The element lies behind a character of two bytes, a declaration and a comment with a bracket in it, and
    the tag that opens it has a bracket in a value. -/
theorem parse_local_declared :
    (∃ e after, parseAt "é<?x?><!-- < --><a k='>'>t<b/></a>z" 2 = .ok (e, after) ∧
      (e.preorder 0).map (fun inner => (inner.2.name, inner.2.bodyStart, inner.2.bodyEnd)) =
        [("a", 26, 31), ("b", 31, 31)] ∧ after.pos = 35 ∧
      ∃ front span : String,
        "é<?x?><!-- < --><a k='>'>t<b/></a>z" = front ++ span ++ String.ofList after.rest ∧
          front.utf8ByteSize = 2 ∧ after.pos = 2 + span.utf8ByteSize ∧
          (∀ tail : String, parseAt (front ++ span ++ tail) 2 = .ok (e, ⟨after.pos, tail.toList⟩)) ∧
          ∃ e₀ : Element, e₀.shift 2 = e ∧ parseAt span 0 = .ok (e₀, ⟨span.utf8ByteSize, []⟩) ∧
            parseFirst span = .ok e₀ ∧ parseAll span = .ok [e₀]) ∧
    ∃ es es', parseAll "<a/><!-- <é/> -->" = .ok es ∧ parseAll " <?x?><b>é<c/></b>" = .ok es' ∧
      parseAll ("<a/><!-- <é/> -->" ++ " <?x?><b>é<c/></b>") =
        .ok (es ++ es'.map (Element.shift "<a/><!-- <é/> -->".utf8ByteSize)) := by
  have hlies : (parseAt "é<?x?><!-- < --><a k='>'>t<b/></a>z" 2).toOption.map (fun r =>
      ((r.1.preorder 0).map fun inner => (inner.2.name, inner.2.bodyStart, inner.2.bodyEnd), r.2.pos)) =
      some ([("a", 26, 31), ("b", 31, 31)], 35) := by decide +kernel
  have hfirst : (parseAll "<a/><!-- <é/> -->").toOption.map List.length = some 1 := by decide +kernel
  have hsecond : (parseAll " <?x?><b>é<c/></b>").toOption.map List.length = some 1 := by
    decide +kernel
  obtain ⟨⟨e, after⟩, hread, hplaces⟩ := exists_ok_of_toOption _ hlies
  obtain ⟨es, hes, -⟩ := exists_ok_of_toOption _ hfirst
  obtain ⟨es', hes', -⟩ := exists_ok_of_toOption _ hsecond
  obtain ⟨hbodies, hpos⟩ := Prod.mk.inj hplaces
  exact ⟨⟨e, after, hread, hbodies, hpos, parse_local.1 hread⟩,
    es, es', hes, hes', parse_local.2 hes hes'⟩

end Lockstep.Markup
