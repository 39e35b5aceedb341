import Lockstep.Proofs.Markup.Elements

/- How deep elements are nested, and how deep they may be.

   1. `Element.height` counts the levels of an element, `Element.heightAll` those of the highest of
      several.
   2. Content stays content further down, as long as the elements it adds have room there
      (`Fills.deepen`). Where they have none, the parser ends at the first element that is one too
      many (`Fills.run_tooDeep`). -/
namespace Lockstep.Markup
open Text

mutual

/-- How many levels an element has, itself included. -/
def Element.height : Element → Nat
  | ⟨_, _, _, children, _, _⟩ => Element.heightAll children + 1

/-- How many levels the highest of the elements has. -/
def Element.heightAll : List Element → Nat
  | [] => 0
  | e :: es => max e.height (Element.heightAll es)

end

theorem Open.height_close (o : Open) (bodyEnd : Nat) :
    (o.close bodyEnd).height = Element.heightAll o.children + 1 := by
  rw [Open.close, Element.height]

/-- There is room for an element and others if there is room for its children, one level further
    down, and for the others. -/
theorem Element.add_heightAll_close_le {o : Open} {bodyEnd : Nat} {es : List Element} {depth k : Nat} :
    depth + heightAll (o.close bodyEnd :: es) ≤ k ↔
      depth + 1 + heightAll o.children ≤ k ∧ depth + heightAll es ≤ k := by
  rw [heightAll, Open.height_close, ← Nat.add_max_add_left, Nat.max_le, Nat.add_right_comm,
    Nat.add_assoc]

theorem Open.children_addChild_append (o : Open) (e : Element) (es : List Element) :
    (o.addChild e).children ++ es = o.children ++ (e :: es) :=
  List.append_assoc o.children [e] es

/-- Content adds children and takes none away. -/
theorem Fills.exists_children {depth pos : Nat} {u : List Char} {o o' : Open}
    (h : Fills depth pos u o o') : ∃ es, o'.children = o.children ++ es := by
  induction h with
  | done => exact ⟨[], (List.append_nil _).symm⟩
  | comment _ _ _ ih => exact ih
  | text _ _ _ _ ih => exact ih
  | closed _ _ _ _ _ ih =>
    obtain ⟨es, hes⟩ := ih
    exact ⟨_, hes.trans (Open.children_addChild_append ..)⟩
  | element _ _ _ _ _ _ _ _ ih =>
    obtain ⟨es, hes⟩ := ih
    exact ⟨_, hes.trans (Open.children_addChild_append ..)⟩

/-- Behind a first child, content adds the others. -/
theorem Fills.exists_cons {depth pos : Nat} {u : List Char} {o o' : Open} {e : Element}
    {es : List Element} (h : Fills depth pos u (o.addChild e) o')
    (hes : o'.children = o.children ++ es) :
    ∃ rest, es = e :: rest ∧ o'.children = (o.addChild e).children ++ rest := by
  obtain ⟨rest, hrest⟩ := h.exists_children
  refine ⟨rest, ?_, hrest⟩
  rw [hrest, Open.children_addChild_append] at hes
  exact (List.append_cancel_left hes).symm

section
variable {depth pos : Nat} {u : List Char} {o o' : Open} {es : List Element}

/-- At any other place and in any other element, content adds elements that are as high. -/
theorem Fills.exists_at_height (h : Fills depth pos u o o') (hes : o'.children = o.children ++ es)
    (pos₂ : Nat) (o₂ : Open) :
    ∃ o₂' es₂, Fills depth pos₂ u o₂ o₂' ∧ o₂'.children = o₂.children ++ es₂ ∧
      Element.heightAll es₂ = Element.heightAll es := by
  induction h generalizing es pos₂ o₂ with
  | @done _ _ o =>
    obtain rfl : [] = es := List.append_cancel_left (by rw [List.append_nil]; exact hes)
    exact ⟨o₂, [], .done, (List.append_nil _).symm, rfl⟩
  | comment hu hs _ ih =>
    obtain ⟨o₂', es₂, hv, hrest⟩ := ih hes _ o₂
    exact ⟨o₂', es₂, .comment hu hs hv, hrest⟩
  | text hne hu hs _ ih =>
    obtain ⟨o₂', es₂, hv, hrest⟩ := ih hes _ (o₂.addText _)
    exact ⟨o₂', es₂, .text hne hu hs hv, hrest⟩
  | @closed depth pos u v o o' tag hu hs hc hd hv ih =>
    obtain ⟨rest, rfl, hadded⟩ := hv.exists_cons hes
    obtain ⟨o₂', es₂, hv, hadded₂, hheight⟩ := ih hadded (pos₂ + byteSize u) (o₂.addChild
      ((Open.ofTag tag (pos₂ + byteSize u)).close (pos₂ + byteSize u)))
    refine ⟨o₂', _, .closed hu hs hc hd hv, hadded₂.trans (Open.children_addChild_append ..), ?_⟩
    rw [Element.heightAll, Element.heightAll, hheight, Open.height_close, Open.height_close]
    rfl
  | @element depth pos u w z v o o' inner tag hu hs hc hd hw hz hv ihw ihv =>
    obtain ⟨rest, rfl, hadded⟩ := hv.exists_cons hes
    obtain ⟨inner₂, below, hw, hinner, hbelow⟩ := ihw (List.nil_append _).symm (pos₂ + byteSize u)
      (Open.ofTag tag (pos₂ + byteSize u))
    obtain ⟨o₂', es₂, hv, hadded₂, hheight⟩ := ihv hadded
      (pos₂ + byteSize u + byteSize w + byteSize z)
      (o₂.addChild (inner₂.close (pos₂ + byteSize u + byteSize w)))
    refine ⟨o₂', _, .element hu hs hc hd hw hz hv,
      hadded₂.trans (Open.children_addChild_append ..), ?_⟩
    have hinner : inner₂.children = below := hinner.trans (List.nil_append below)
    rw [Element.heightAll, Element.heightAll, hheight, Open.height_close, Open.height_close, hinner,
      hbelow]

/-- Where its elements have room, content is content. -/
theorem Fills.deepen (h : Fills depth pos u o o') (hes : o'.children = o.children ++ es)
    {depth' : Nat} (hd : depth' + Element.heightAll es ≤ maxDepth) : Fills depth' pos u o o' := by
  induction h generalizing es depth' with
  | done => exact .done
  | comment hu hs _ ih => exact .comment hu hs (ih hes hd)
  | text hne hu hs _ ih => exact .text hne hu hs (ih hes hd)
  | closed hu hs hc _ hv ih =>
    obtain ⟨rest, rfl, hrest⟩ := hv.exists_cons hes
    obtain ⟨hlt, hd⟩ := Element.add_heightAll_close_le.1 hd
    exact .closed hu hs hc hlt (ih hrest hd)
  | element hu hs hc _ hw hz hv ihw ihv =>
    obtain ⟨rest, rfl, hrest⟩ := hv.exists_cons hes
    obtain ⟨hinner, hd⟩ := Element.add_heightAll_close_le.1 hd
    have hlt := Nat.lt_of_lt_of_le (Nat.lt_add_one depth') (Nat.le_of_add_right_le hinner)
    exact .element hu hs hc hlt (ihw (List.nil_append _).symm hinner) hz (ihv hrest hd)

/-- No element begins where the most that may be are open. -/
theorem run_opening_tooDeep {outer : List Open} {cs : List Char} (hs : upcoming cs = .opening)
    (hd : maxDepth ≤ outer.length + 1) : run outer o ⟨pos, cs⟩ = .error ⟨pos, .tooDeep⟩ := by
  rw [run]
  split <;> simp_all
  rfl

/-- Where one more may be open, an element is read and added, whatever follows it. -/
theorem IsElement.run {outer : List Open} {u : List Char} {e : Element}
    (h : IsElement (outer.length + 1) pos u e) (hs : upcoming u = .opening)
    (hd : outer.length + 1 < maxDepth) (rest : List Char) :
    run outer o ⟨pos, u ++ rest⟩ = run outer (o.addChild e) ⟨pos + byteSize u, rest⟩ := by
  cases h with
  | closed hu hc => rw [run_openTag hu hs hd, if_pos hc]
  | @around u w z tag inner hu hc hw hz =>
    rw [upcoming_append_of_mem hu.bracket_mem] at hs
    simp only [List.append_assoc]
    rw [run_openTag hu hs hd, if_neg (by rw [hc]; decide),
      run_of_fills hw (o :: outer) rfl (stopsBy_closeTag hz rest), run_closeTag (hw.isCloseTag hz)]
    simp only [byteSize_append, Nat.add_assoc]

/-- Content whose elements have no room is not read, whatever follows it. -/
theorem Fills.run_tooDeep (h : Fills depth pos u o o') (hes : o'.children = o.children ++ es)
    {outer : List Open} (hopen : outer.length + 1 ≤ maxDepth)
    (hd : maxDepth < outer.length + 1 + Element.heightAll es) {rest : List Char}
    (hr : StopsBy (· ≠ '<') rest) :
    ∃ offset, run outer o ⟨pos, u ++ rest⟩ = .error ⟨offset, .tooDeep⟩ := by
  induction h generalizing es outer rest with
  | @done _ _ o =>
    obtain rfl : [] = es := List.append_cancel_left (by rw [List.append_nil]; exact hes)
    exact absurd hd (Nat.not_lt.2 hopen)
  | @comment depth pos u v o o' hu hs _ ih =>
    rw [List.append_assoc, run_comment hu (upcoming_comment hu hs _)]
    exact ih hes hopen hd hr
  | @text depth pos u v o o' hne hu hs _ ih =>
    have hstop : StopsBy (· ≠ '<') (v ++ rest) := by
      cases v with
      | nil => exact hr
      | cons x xs => exact hs
    rw [List.append_assoc, run_text hne hu hstop]
    exact ih hes hopen hd hr
  | @closed depth pos u v o o' tag hu hs hc _ hv ih =>
    obtain ⟨es', rfl, hes'⟩ := hv.exists_cons hes
    have hupcoming := (upcoming_append_of_mem hu.bracket_mem (v ++ rest)).trans hs
    rw [List.append_assoc]
    by_cases hroom : outer.length + 1 < maxDepth
    · rw [(IsElement.closed hu hc).run hs hroom]
      refine ih hes' hopen (Nat.not_le.1 fun hrest => Nat.not_le.2 hd ?_) hr
      exact Element.add_heightAll_close_le.2 ⟨hroom, hrest⟩
    · exact ⟨pos, run_opening_tooDeep hupcoming (Nat.not_lt.1 hroom)⟩
  | @element depth pos u w z v o o' inner tag hu hs hc _ hw hz hv ihw ihv =>
    obtain ⟨es', rfl, hes'⟩ := hv.exists_cons hes
    have hupcoming := (upcoming_append_of_mem hu.bracket_mem (w ++ (z ++ (v ++ rest)))).trans hs
    simp only [List.append_assoc]
    by_cases hroom : outer.length + 1 < maxDepth
    · rw [run_openTag hu hs hroom, if_neg (by rw [hc]; decide)]
      -- Either the element itself is too high, or it is read and what follows it is.
      by_cases hinner : (o :: outer).length + 1 + Element.heightAll inner.children ≤ maxDepth
      · have hfills := hw.deepen (List.nil_append _).symm hinner
        rw [run_of_fills hfills (o :: outer) rfl (stopsBy_closeTag hz (v ++ rest)),
          run_closeTag (hw.isCloseTag hz)]
        refine ihv hes' hopen (Nat.not_le.1 fun hrest => Nat.not_le.2 hd ?_) hr
        exact Element.add_heightAll_close_le.2 ⟨hinner, hrest⟩
      · have hroom : (o :: outer).length + 1 ≤ maxDepth := hroom
        exact ihw (List.nil_append _).symm hroom (Nat.not_le.1 hinner)
          (stopsBy_closeTag hz (v ++ rest))
    · exact ⟨pos, run_opening_tooDeep hupcoming (Nat.not_lt.1 hroom)⟩

end

end Lockstep.Markup
