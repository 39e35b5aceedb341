import Lockstep.Proofs.Markup.Tags

/- The grammar of elements, and that the parser follows it.

   1. `Fills depth pos u o o'`: the text `u`, at `pos` and under `depth` open elements, is content
      that takes the innermost open element from `o` to `o'`. It is a list of comments, runs of
      character data and elements, each of which is again content between two tags. `IsElement`
      is the same for one element.
   2. `run_of_fills` and `exists_fills`: `run` reads content exactly when it is content, and then
      goes on behind it. `IsElement.readElement` and `exists_element` say so of `readElement`.
   3. `Fills.exists_at`: whether a text is content depends neither on the place where it stands nor
      on what the element holds already. -/
namespace Lockstep.Markup
open Text

/-! ## What a text announces -/

/-- A text with a bracket in it announces the same whatever follows it. -/
theorem upcoming_append_of_mem {u : List Char} (h : '>' ∈ u) (rest : List Char) :
    upcoming (u ++ rest) = upcoming u := by
  match u, h with
  | [a], h =>
    obtain rfl : '>' = a := by simpa using h
    rfl
  | [a, b], h =>
    rcases (by simpa using h : '>' = a ∨ '>' = b) with rfl | rfl
    · rfl
    · by_cases ha : a = '<' <;> simp [upcoming, ha]
  | [a, b, c], h =>
    rcases (by simpa using h : '>' = a ∨ '>' = b ∨ '>' = c) with rfl | rfl | rfl
    · rfl
    · by_cases ha : a = '<' <;> simp [upcoming, ha]
    · by_cases ha : a = '<' <;> by_cases hb : b = '/' <;> simp [upcoming, ha, hb]
  | a :: b :: c :: d :: u, _ =>
    by_cases ha : a = '<'
    · subst ha
      by_cases hb : b = '/'
      · subst hb
        rfl
      · by_cases hc : b = '!' ∧ c = '-' ∧ d = '-'
        · obtain ⟨rfl, rfl, rfl⟩ := hc
          rfl
        · simp only [List.cons_append, upcoming]
          split <;> split <;> simp_all
    · simp [upcoming, ha]

theorem upcoming_closeTag {u : List Char} {name : String} (h : IsCloseTag u name)
    (rest : List Char) : upcoming (u ++ rest) = .closing := by
  obtain ⟨gap, -, -, rfl⟩ := h
  rfl

theorem upcoming_text {u : List Char} (hne : u ≠ []) (hu : ∀ x ∈ u, x ≠ '<') (rest : List Char) :
    upcoming (u ++ rest) = .text := by
  cases u with
  | nil => exact absurd rfl hne
  | cons x xs => simp [upcoming, hu x List.mem_cons_self]

theorem exists_of_upcoming_closing {cs : List Char} (h : upcoming cs = .closing) :
    ∃ rest, cs = '<' :: '/' :: rest := by
  unfold upcoming at h
  split at h <;> cases h
  exact ⟨_, rfl⟩

/-- Character data comes as a run of it, and then something else. -/
theorem exists_of_upcoming_text {c : Cursor} (h : upcoming c.rest = .text) :
    ∃ u rest, c.rest = u ++ rest ∧ u ≠ [] ∧ (∀ x ∈ u, x ≠ '<') ∧ StopsBy (· ≠ '<') rest ∧
      c.rest.takeWhile (· ≠ '<') = u ∧ c.skipWhile (· ≠ '<') = ⟨c.pos + byteSize u, rest⟩ := by
  obtain ⟨u, hcs, hall, hstop, hplace⟩ := exists_skipWhile (· ≠ '<') c
  have hlt := length_text_lt h
  refine ⟨u, _, hcs, ?_, fun x hx => by simpa using hall x hx, hstop, ?_, hplace⟩
  · rintro rfl
    rw [List.nil_append] at hcs
    rw [← hcs] at hlt
    exact Nat.lt_irrefl _ hlt
  · rw [hcs, takeWhile_append_of_stopsBy hall hstop]

/-- A text that does not announce character data does not start with any. -/
theorem stopsBy_bracket_of_upcoming {rest : List Char} (h : upcoming rest ≠ .text) :
    StopsBy (· ≠ '<') rest := by
  cases rest with
  | nil => simp
  | cons x xs =>
    rw [stopsBy_cons, decide_eq_false_iff_not]
    intro hx
    exact h (by simp [upcoming, hx])

theorem stopsBy_closeTag {u : List Char} {name : String} (h : IsCloseTag u name)
    (rest : List Char) : StopsBy (· ≠ '<') (u ++ rest) :=
  stopsBy_bracket_of_upcoming (by rw [upcoming_closeTag h]; decide)

/-! ## Content -/

/-- Content that takes an open element from one state to another. -/
inductive Fills : Nat → Nat → List Char → Open → Open → Prop
  | done {depth pos : Nat} {o : Open} : Fills depth pos [] o o
  | comment {depth pos : Nat} {u v : List Char} {o o' : Open}
      (hu : EndsFirst "-->".toList u) (hs : upcoming u = .comment)
      (hv : Fills depth (pos + byteSize u) v o o') : Fills depth pos (u ++ v) o o'
  | text {depth pos : Nat} {u v : List Char} {o o' : Open}
      (hne : u ≠ []) (hu : ∀ x ∈ u, x ≠ '<') (hs : StopsBy (· ≠ '<') v)
      (hv : Fills depth (pos + byteSize u) v (o.addText u) o') : Fills depth pos (u ++ v) o o'
  | closed {depth pos : Nat} {u v : List Char} {o o' : Open} {tag : Tag}
      (hu : IsOpenTag u tag) (hs : upcoming u = .opening) (hc : tag.closesItself = true)
      (hd : depth < maxDepth)
      (hv : Fills depth (pos + byteSize u) v
        (o.addChild ((Open.ofTag tag (pos + byteSize u)).close (pos + byteSize u))) o') :
      Fills depth pos (u ++ v) o o'
  | element {depth pos : Nat} {u w z v : List Char} {o o' inner : Open} {tag : Tag}
      (hu : IsOpenTag u tag) (hs : upcoming u = .opening) (hc : tag.closesItself = false)
      (hd : depth < maxDepth)
      (hw : Fills (depth + 1) (pos + byteSize u) w (Open.ofTag tag (pos + byteSize u)) inner)
      (hz : IsCloseTag z tag.name)
      (hv : Fills depth (pos + byteSize u + byteSize w + byteSize z) v
        (o.addChild (inner.close (pos + byteSize u + byteSize w))) o') :
      Fills depth pos (u ++ (w ++ (z ++ v))) o o'

/-- One element, from its opening tag to the end of its closing tag, under `depth` open ones. -/
inductive IsElement (depth pos : Nat) : List Char → Element → Prop
  | closed {u : List Char} {tag : Tag} (hu : IsOpenTag u tag) (hc : tag.closesItself = true) :
      IsElement depth pos u ((Open.ofTag tag (pos + byteSize u)).close (pos + byteSize u))
  | around {u w z : List Char} {tag : Tag} {inner : Open}
      (hu : IsOpenTag u tag) (hc : tag.closesItself = false)
      (hw : Fills (depth + 1) (pos + byteSize u) w (Open.ofTag tag (pos + byteSize u)) inner)
      (hz : IsCloseTag z tag.name) :
      IsElement depth pos (u ++ (w ++ z)) (inner.close (pos + byteSize u + byteSize w))

/-- Content leaves the opening tag and the start of the body as they were. -/
theorem Fills.tag_eq {depth pos : Nat} {u : List Char} {o o' : Open} (h : Fills depth pos u o o') :
    o'.tag = o.tag ∧ o'.bodyStart = o.bodyStart := by
  induction h with
  | done => exact ⟨rfl, rfl⟩
  | comment _ _ _ ih => exact ih
  | text _ _ _ _ ih => exact ih
  | closed _ _ _ _ _ ih => exact ih
  | element _ _ _ _ _ _ _ _ ih => exact ih

theorem Fills.isCloseTag {depth pos : Nat} {u z : List Char} {o o' : Open}
    (h : Fills depth pos u o o') (hz : IsCloseTag z o.tag.name) : IsCloseTag z o'.tag.name := by
  rwa [h.tag_eq.1]

/-- Content is content at any other place and in any other element. -/
theorem Fills.exists_at {depth pos : Nat} {u : List Char} {o o' : Open}
    (h : Fills depth pos u o o') (pos₂ : Nat) (o₂ : Open) :
    ∃ o₂', Fills depth pos₂ u o₂ o₂' := by
  induction h generalizing pos₂ o₂ with
  | done => exact ⟨o₂, .done⟩
  | comment hu hs _ ih =>
    obtain ⟨o₂', hv⟩ := ih _ o₂
    exact ⟨o₂', .comment hu hs hv⟩
  | text hne hu hs _ ih =>
    obtain ⟨o₂', hv⟩ := ih _ _
    exact ⟨o₂', .text hne hu hs hv⟩
  | closed hu hs hc hd _ ih =>
    obtain ⟨o₂', hv⟩ := ih _ _
    exact ⟨o₂', .closed hu hs hc hd hv⟩
  | element hu hs hc hd _ hz _ ihw ihv =>
    obtain ⟨inner, hw⟩ := ihw _ _
    obtain ⟨o₂', hv⟩ := ihv _ _
    exact ⟨o₂', .element hu hs hc hd hw hz hv⟩

/-- A text that is content under `depth` open elements, wherever it stands. -/
def IsContent (depth : Nat) (u : List Char) : Prop := ∀ pos o, ∃ o', Fills depth pos u o o'

theorem isContent_nil (depth : Nat) : IsContent depth [] := fun _ o => ⟨o, .done⟩

theorem Fills.isContent {depth pos : Nat} {u : List Char} {o o' : Open}
    (h : Fills depth pos u o o') : IsContent depth u := h.exists_at

/-- The offsets of a part of a text give that part back. -/
theorem slice_append (pos : Nat) (u w rest : List Char) :
    Cursor.slice ⟨pos, u ++ (w ++ rest)⟩ (pos + byteSize u) (pos + byteSize u + byteSize w) = w := by
  simp only [Cursor.slice, Nat.add_sub_cancel_left]
  rw [dropBytes_byteSize_append, takeBytes_byteSize_append]

/-- What stands between the tags of an element is content. -/
theorem IsElement.isContent_body {depth pos : Nat} {u : List Char} {e : Element}
    (h : IsElement depth pos u e) (rest : List Char) :
    IsContent (depth + 1) (Cursor.slice ⟨pos, u ++ rest⟩ e.bodyStart e.bodyEnd) := by
  cases h with
  | @closed u tag hu hc =>
    have hslice := slice_append pos u [] rest
    show IsContent _ (Cursor.slice _ (pos + byteSize u) (pos + byteSize u + byteSize []))
    rw [List.nil_append] at hslice
    rw [hslice]
    exact isContent_nil _
  | @around u w z tag inner hu hc hw hz =>
    have hslice := slice_append pos u w (z ++ rest)
    have hstart : inner.bodyStart = pos + byteSize u := hw.tag_eq.2
    show IsContent _ (Cursor.slice _ inner.bodyStart (pos + byteSize u + byteSize w))
    rw [List.append_assoc, List.append_assoc, hstart, hslice]
    exact hw.isContent

/-! ## One round of the parser -/

section
variable {outer : List Open} {o parent : Open} {pos : Nat} {u rest : List Char} {tag : Tag}

theorem run_closeTag_last (hu : IsCloseTag u o.tag.name) :
    run [] o ⟨pos, u ++ rest⟩ = .ok (o.close pos, ⟨pos + byteSize u, rest⟩) := by
  have hs := upcoming_closeTag hu rest
  have hread := hu.passes pos rest
  rw [run]
  split <;> simp_all
  split <;> simp_all

theorem run_closeTag (hu : IsCloseTag u o.tag.name) :
    run (parent :: outer) o ⟨pos, u ++ rest⟩ =
      run outer (parent.addChild (o.close pos)) ⟨pos + byteSize u, rest⟩ := by
  have hs := upcoming_closeTag hu rest
  have hread := hu.passes pos rest
  rw [run]
  split <;> simp_all
  split <;> simp_all

theorem run_comment (hu : EndsFirst "-->".toList u) (hs : upcoming (u ++ rest) = .comment) :
    run outer o ⟨pos, u ++ rest⟩ = run outer o ⟨pos + byteSize u, rest⟩ := by
  have hread := passes_readPast hu pos rest
  rw [run]
  split <;> simp_all
  split <;> simp_all

theorem run_text (hne : u ≠ []) (hu : ∀ x ∈ u, x ≠ '<') (hr : StopsBy (· ≠ '<') rest) :
    run outer o ⟨pos, u ++ rest⟩ = run outer (o.addText u) ⟨pos + byteSize u, rest⟩ := by
  have hs := upcoming_text hne hu rest
  have hall : ∀ x ∈ u, decide (x ≠ '<') = true := fun x hx => decide_eq_true (hu x hx)
  have hskip := skipWhile_append_of_stopsBy pos hall hr
  have htake := takeWhile_append_of_stopsBy hall hr
  rw [run]
  split
  case h_5 =>
    show run outer (o.addText ((u ++ rest).takeWhile (· ≠ '<')))
      (Cursor.skipWhile (· ≠ '<') ⟨pos, u ++ rest⟩) = _
    rw [htake, hskip]
  all_goals
    rename_i hother
    rw [hs] at hother
    cases hother

theorem run_openTag (hu : IsOpenTag u tag) (hs : upcoming u = .opening)
    (hd : outer.length + 1 < maxDepth) :
    run outer o ⟨pos, u ++ rest⟩ =
      if tag.closesItself then
        run outer (o.addChild ((Open.ofTag tag (pos + byteSize u)).close (pos + byteSize u)))
          ⟨pos + byteSize u, rest⟩
      else run (o :: outer) (Open.ofTag tag (pos + byteSize u)) ⟨pos + byteSize u, rest⟩ := by
  have hs := (upcoming_append_of_mem hu.bracket_mem rest).trans hs
  have hread := hu.takes pos rest
  rw [run]
  split <;> simp_all
  rw [if_neg (by omega)]
  split <;> simp_all

end

/-! ## The parser follows the grammar -/

/-- A comment is announced whatever follows it. -/
theorem upcoming_comment {u : List Char} (hu : EndsFirst "-->".toList u)
    (hs : upcoming u = .comment) (rest : List Char) : upcoming (u ++ rest) = .comment := by
  obtain ⟨before, rfl, -⟩ := hu
  rw [upcoming_append_of_mem (by simp), hs]

theorem run_of_fills {depth pos : Nat} {u : List Char} {o o' : Open}
    (h : Fills depth pos u o o') (outer : List Open) (hdepth : depth = outer.length + 1)
    {rest : List Char} (hr : StopsBy (· ≠ '<') rest) :
    run outer o ⟨pos, u ++ rest⟩ = run outer o' ⟨pos + byteSize u, rest⟩ := by
  induction h generalizing outer rest with
  | done => rfl
  | @comment depth pos u v o o' hu hs _ ih =>
    rw [List.append_assoc, run_comment hu (upcoming_comment hu hs _), ih outer hdepth hr,
      byteSize_append, Nat.add_assoc]
  | @text depth pos u v o o' hne hu hs _ ih =>
    have hstop : StopsBy (· ≠ '<') (v ++ rest) := by
      cases v with
      | nil => exact hr
      | cons x xs => exact hs
    rw [List.append_assoc, run_text hne hu hstop, ih outer hdepth hr, byteSize_append, Nat.add_assoc]
  | @closed depth pos u v o o' tag hu hs hc hd _ ih =>
    rw [List.append_assoc, run_openTag hu hs (hdepth ▸ hd), if_pos hc, ih outer hdepth hr,
      byteSize_append, Nat.add_assoc]
  | @element depth pos u w z v o o' inner tag hu hs hc hd hw hz _ ihw ihv =>
    -- The inner run stops at the closing tag, which the outer run then takes.
    simp only [List.append_assoc]
    rw [run_openTag hu hs (hdepth ▸ hd), if_neg (by rw [hc]; decide),
      ihw (o :: outer) (by rw [hdepth]; rfl) (stopsBy_closeTag hz (v ++ rest)),
      run_closeTag (hw.isCloseTag hz), ihv outer hdepth hr]
    simp only [byteSize_append, Nat.add_assoc]

theorem IsElement.readElement {pos : Nat} {u : List Char} {e : Element} (h : IsElement 0 pos u e)
    (rest : List Char) :
    readElement ⟨pos, u ++ rest⟩ = .ok (e, ⟨pos + byteSize u, rest⟩) := by
  cases h with
  | closed hu hc => simp only [Markup.readElement, hu.takes pos rest, hc, if_true]
  | @around u w z tag inner hu hc hw hz =>
    simp only [List.append_assoc, Markup.readElement, hu.takes pos (w ++ (z ++ rest)), hc,
      Bool.false_eq_true, if_false]
    rw [run_of_fills hw _ rfl (stopsBy_closeTag hz rest), run_closeTag_last (hw.isCloseTag hz)]
    simp only [byteSize_append, Nat.add_assoc]

/-- A run that ends well first reads content up to the closing tag of the innermost element, and
    goes on in the element around it. -/
theorem exists_fills {outer : List Open} {o : Open} {pos : Nat} {cs : List Char}
    {r : Element × Cursor} (h : run outer o ⟨pos, cs⟩ = .ok r) :
    ∃ u z rest o', Fills (outer.length + 1) pos u o o' ∧ IsCloseTag z o.tag.name ∧
      cs = u ++ (z ++ rest) := by
  -- What follows a child element is read after the child, so the induction is on what is left.
  induction hn : cs.length using Nat.strongRecOn generalizing outer o pos cs with
  | _ n ih =>
  subst hn
  have hrun := h
  rw [run] at h
  split at h
  · cases h
  · rename_i hs
    obtain ⟨tail, rfl⟩ := exists_of_upcoming_closing hs
    split at h
    · cases h
    · rename_i after hc
      obtain ⟨z, hz, hclose⟩ := exists_closeTag hc
      exact ⟨[], z, after.rest, o, .done, hclose, hz⟩
  · rename_i hs
    split at h
    · cases h
    · rename_i after hc
      obtain ⟨u, rfl, hends⟩ := exists_readPast hc
      rw [(passes_readPast hends).place rfl hc] at h
      obtain ⟨v, z, rest, o', hv, hz, hrest⟩ := ih _ (length_readPast_lt (by decide) hc) h rfl
      rw [upcoming_append_of_mem (hends.mem (by decide))] at hs
      exact ⟨u ++ v, z, rest, o', .comment hends hs hv, hz, by rw [hrest, List.append_assoc]⟩
  · rename_i hs
    split at h
    · cases h
    · rename_i hd
      split at h
      · cases h
      · rename_i tag after hc
        obtain ⟨u, rfl, hopen⟩ := exists_openTag hc
        rw [hopen.takes.place rfl hc] at h
        rw [upcoming_append_of_mem hopen.bracket_mem] at hs
        have hlt := length_readOpenTag_lt hc
        split at h
        · rename_i hcloses
          obtain ⟨v, z, rest, o', hv, hz, hrest⟩ := ih _ hlt h rfl
          exact ⟨u ++ v, z, rest, o', .closed hopen hs hcloses (by omega) hv, hz,
            by rw [hrest, List.append_assoc]⟩
        · rename_i hcloses
          obtain ⟨w, z', rest', inner, hw, hz', hrest'⟩ := ih _ hlt h rfl
          -- The run inside the child ends with the child's closing tag; the rest is read around it.
          rw [hrest', run_of_fills hw _ rfl (stopsBy_closeTag hz' rest'),
            run_closeTag (hw.isCloseTag hz')] at h
          have hlength := congrArg List.length hrest'
          simp only [List.length_append] at hlength hlt ih
          obtain ⟨v, z, rest, o', hv, hz, hrest⟩ := ih rest'.length (by omega) h rfl
          refine ⟨u ++ (w ++ (z' ++ v)), z, rest, o',
            .element hopen hs (by simpa using hcloses) (by omega) hw hz' hv, hz, ?_⟩
          rw [hrest', hrest]
          simp only [List.append_assoc]
  · rename_i hs
    have hlt := length_text_lt hs
    obtain ⟨u, tail, rfl, hne, hu, hstop, htake, hskip⟩ := exists_of_upcoming_text hs
    rw [hskip] at hlt
    rw [htake, hskip] at h
    obtain ⟨v, z, rest, o', hv, hz, rfl⟩ := ih _ hlt h rfl
    refine ⟨u ++ v, z, rest, o', .text hne hu ?_ hv, hz, by rw [List.append_assoc]⟩
    cases v with
    | nil => simp
    | cons x xs => exact hstop

/-- What the parser reads as an element is one. -/
theorem exists_element {pos : Nat} {cs : List Char} {c' : Cursor} {e : Element}
    (h : readElement ⟨pos, cs⟩ = .ok (e, c')) :
    ∃ u, cs = u ++ c'.rest ∧ IsElement 0 pos u e ∧ c' = ⟨pos + byteSize u, c'.rest⟩ := by
  have hread := h
  unfold Markup.readElement at h
  split at h
  · cases h
  · rename_i tag after ho
    obtain ⟨u, rfl, hopen⟩ := exists_openTag ho
    have hplace := hopen.takes.place rfl ho
    split at h
    · rename_i hc
      cases h
      rw [hplace]
      exact ⟨u, rfl, .closed hopen hc, rfl⟩
    · rename_i hc
      rw [hplace] at h
      obtain ⟨w, z, rest, inner, hw, hz, hrest⟩ := exists_fills h
      have helement := IsElement.around hopen (by simpa using hc) hw hz
      rw [hrest, ← List.append_assoc w, ← List.append_assoc u, helement.readElement] at hread
      cases hread
      exact ⟨_, by rw [hrest]; simp, helement, rfl⟩

end Lockstep.Markup
