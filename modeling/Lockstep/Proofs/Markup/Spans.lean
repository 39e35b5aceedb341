import Lockstep.Proofs.Markup.Nesting
import Lockstep.Proofs.Markup.Places
import Lockstep.Proofs.Markup.Readable

/- Where elements lie in the text they are read from.

   1. `Element.Within src first last e`: the body of `e` begins behind `first` and ends by `last`, both at
      boundaries of the text. The bodies of its children lie within it in the same way, one behind the other,
      and so on down the tree.
   2. At each place that content has come to, what it added lies in front of that place (`Fills.within`).
   3. So whatever is read at an offset lies between that offset and the place behind it, and has no more
      levels than there may be (`within_of_parseAt`). -/
namespace Lockstep.Markup
open Text

/-- An element that lies between two offsets of a text. -/
inductive Element.Within (src : List Char) : Nat → Nat → Element → Prop
  | intro {first last : Nat} {e : Element}
      (hstart : IsBoundary src e.bodyStart) (hend : IsBoundary src e.bodyEnd)
      (hfirst : first < e.bodyStart) (hspan : e.bodyStart ≤ e.bodyEnd) (hlast : e.bodyEnd ≤ last)
      (hchildren : ∀ child ∈ e.children, Within src e.bodyStart e.bodyEnd child)
      (horder : e.children.Pairwise fun a b => a.bodyEnd < b.bodyStart) : Within src first last e

/-- An open element whose content has come to an offset. -/
structure Open.Within (src : List Char) (pos : Nat) (o : Open) : Prop where
  start : IsBoundary src o.bodyStart
  span : o.bodyStart ≤ pos
  children : ∀ child ∈ o.children, child.Within src o.bodyStart pos
  order : o.children.Pairwise fun a b => a.bodyEnd < b.bodyStart

section
variable {src : List Char} {first first' last last' pos pos' : Nat} {e : Element} {o : Open}

theorem Element.Within.mono (h : e.Within src first last) (hfirst : first' ≤ first)
    (hlast : last ≤ last') : e.Within src first' last' := by
  cases h with
  | intro hstart hend hlow hspan hhigh hchildren horder =>
    exact .intro hstart hend (Nat.lt_of_le_of_lt hfirst hlow) hspan (Nat.le_trans hhigh hlast)
      hchildren horder

theorem Element.Within.bodyEnd_le (h : e.Within src first last) : e.bodyEnd ≤ last := by
  cases h with
  | intro _ _ _ _ hlast _ _ => exact hlast

theorem Element.Within.lt_bodyStart (h : e.Within src first last) : first < e.bodyStart := by
  cases h with
  | intro _ _ hfirst _ _ _ _ => exact hfirst

theorem Element.Within.lt (h : e.Within src first last) : first < last := by
  cases h with
  | intro _ _ hfirst hspan hlast _ _ => omega

theorem Open.Within.mono (h : o.Within src pos) (hpos : pos ≤ pos') : o.Within src pos' where
  start := h.start
  span := Nat.le_trans h.span hpos
  children child hchild := (h.children child hchild).mono (Nat.le_refl _) hpos
  order := h.order

theorem Open.within_ofTag (tag : Tag) (h : IsBoundary src pos) : (Open.ofTag tag pos).Within src pos :=
  ⟨h, Nat.le_refl _, nofun, .nil⟩

/-- A child that lies behind the others is one more. -/
theorem Open.Within.addChild (h : o.Within src pos) (hpos : pos ≤ pos') (he : e.Within src pos pos') :
    (o.addChild e).Within src pos' where
  start := h.start
  span := Nat.le_trans h.span hpos
  children child hchild := by
    rcases List.mem_append.1 hchild with hold | hnew
    · exact (h.children child hold).mono (Nat.le_refl _) hpos
    · rw [List.mem_singleton.1 hnew]
      exact he.mono h.span (Nat.le_refl _)
  order := by
    refine List.pairwise_append.2 ⟨h.order, List.pairwise_singleton _ _, ?_⟩
    intro a ha b hb
    rw [List.mem_singleton.1 hb]
    exact Nat.lt_of_le_of_lt (h.children a ha).bodyEnd_le he.lt_bodyStart

/-- An open element that is closed at a place lies up to any place behind it. -/
theorem Open.Within.close (h : o.Within src pos) (hend : IsBoundary src pos) (hfirst : first < o.bodyStart)
    (hlast : pos ≤ last) : (o.close pos).Within src first last :=
  .intro h.start hend hfirst h.span hlast h.children h.order

end

/-! ## Content -/

theorem IsOpenTag.byteSize_pos {u : List Char} {tag : Tag} (h : IsOpenTag u tag) : 0 < byteSize u := by
  cases u with
  | nil => exact absurd h.bracket_mem List.not_mem_nil
  | cons x xs => exact Nat.add_pos_left x.utf8Size_pos _

/-- A tag that closes itself is an element with an empty body. -/
theorem IsOpenTag.within_close {src u rest : List Char} {tag : Tag} {pos : Nat} (hu : IsOpenTag u tag)
    (hc : Cursor.In src ⟨pos, u ++ rest⟩) :
    ((Open.ofTag tag (pos + byteSize u)).close (pos + byteSize u)).Within src pos (pos + byteSize u) := by
  have hafter : Cursor.In src ⟨pos + byteSize u, rest⟩ := hc.forward rfl rfl
  have hlt := hu.byteSize_pos
  exact (Open.within_ofTag tag hafter.isBoundary).close hafter.isBoundary
    (show pos < pos + byteSize u by omega) (Nat.le_refl _)

/-- What content adds to an open element lies in front of the place it comes to. -/
theorem Fills.within {src : List Char} {depth pos : Nat} {u rest : List Char} {o o' : Open}
    (h : Fills depth pos u o o') (hc : Cursor.In src ⟨pos, u ++ rest⟩) (ho : o.Within src pos) :
    o'.Within src (pos + byteSize u) := by
  induction h generalizing rest with
  | done => exact ho
  | @comment depth pos u v o o' hu hs hv ih =>
    rw [List.append_assoc] at hc
    have hafter := ih (hc.forward rfl rfl) (ho.mono (Nat.le_add_right ..))
    rwa [byteSize_append, ← Nat.add_assoc]
  | @text depth pos u v o o' hne hu hs hv ih =>
    rw [List.append_assoc] at hc
    have hmore : (o.addText u).Within src pos := ⟨ho.start, ho.span, ho.children, ho.order⟩
    have hafter := ih (hc.forward rfl rfl) (hmore.mono (Nat.le_add_right ..))
    rwa [byteSize_append, ← Nat.add_assoc]
  | @closed depth pos u v o o' tag hu hs hcloses hd hv ih =>
    rw [List.append_assoc] at hc
    have hmore := ho.addChild (Nat.le_add_right ..) (hu.within_close hc)
    have hafter := ih (hc.forward rfl rfl) hmore
    rwa [byteSize_append, ← Nat.add_assoc]
  | @element depth pos u w z v o o' inner tag hu hs hcloses hd hw hz hv ihw ihv =>
    simp only [List.append_assoc] at hc
    have hbody : Cursor.In src ⟨pos + byteSize u, w ++ (z ++ (v ++ rest))⟩ := hc.forward rfl rfl
    have hclose : Cursor.In src ⟨pos + byteSize u + byteSize w, z ++ (v ++ rest)⟩ := hbody.forward rfl rfl
    have hbehind : Cursor.In src ⟨pos + byteSize u + byteSize w + byteSize z, v ++ rest⟩ :=
      hclose.forward rfl rfl
    have hinner := ihw hbody (Open.within_ofTag tag hbody.isBoundary)
    have hstart : inner.bodyStart = pos + byteSize u := hw.tag_eq.2
    have hlt := hu.byteSize_pos
    have hchild := hinner.close hclose.isBoundary (show pos < inner.bodyStart by omega)
      (Nat.le_add_right _ (byteSize z))
    have hmore := ho.addChild (by omega) hchild
    have hafter := ihv hbehind hmore
    simpa only [byteSize_append, Nat.add_assoc] using hafter

theorem IsElement.within {src : List Char} {depth pos : Nat} {u rest : List Char} {e : Element}
    (h : IsElement depth pos u e) (hc : Cursor.In src ⟨pos, u ++ rest⟩) :
    e.Within src pos (pos + byteSize u) := by
  cases h with
  | closed hu hcloses => exact hu.within_close hc
  | @around u w z tag inner hu hcloses hw hz =>
    simp only [List.append_assoc] at hc
    have hbody : Cursor.In src ⟨pos + byteSize u, w ++ (z ++ rest)⟩ := hc.forward rfl rfl
    have hclose : Cursor.In src ⟨pos + byteSize u + byteSize w, z ++ rest⟩ := hbody.forward rfl rfl
    have hinner := hw.within hbody (Open.within_ofTag tag hbody.isBoundary)
    have hstart : inner.bodyStart = pos + byteSize u := hw.tag_eq.2
    have hlt := hu.byteSize_pos
    have helement := hinner.close hclose.isBoundary (show pos < inner.bodyStart by omega)
      (Nat.le_add_right _ (byteSize z))
    simpa only [byteSize_append, Nat.add_assoc] using helement

/-- The body of an element is a part of its text. -/
theorem IsElement.exists_body {depth pos : Nat} {u : List Char} {e : Element} (h : IsElement depth pos u e) :
    ∃ front body back, u = front ++ (body ++ back) ∧ e.bodyStart = pos + byteSize front ∧
      e.bodyEnd = pos + byteSize front + byteSize body := by
  cases h with
  | @closed u tag hu hcloses => exact ⟨u, [], [], (List.append_nil _).symm, rfl, rfl⟩
  | @around u w z tag inner hu hcloses hw hz => exact ⟨u, w, z, rfl, hw.tag_eq.2, rfl⟩

/-! ## Levels -/

namespace Element

mutual

/-- Elements that can be read under so many open ones have no more levels than there is room for. -/
theorem Readable.add_height_le {e : Element} {depth : Nat} (h : e.Readable depth) :
    depth + e.height ≤ maxDepth := by
  obtain ⟨name, attributes, text, children, bodyStart, bodyEnd⟩ := e
  obtain ⟨hroom, -, -, hchildren⟩ := h
  have hbelow := hchildren.add_heightAll_le hroom
  rw [height]
  omega

theorem ReadableAll.add_heightAll_le {es : List Element} {depth : Nat} (h : ReadableAll depth es)
    (hd : depth ≤ maxDepth) : depth + heightAll es ≤ maxDepth := by
  cases es with
  | nil => exact hd
  | cons e es =>
    have hfirst := h.1.add_height_le
    have hrest := h.2.add_heightAll_le hd
    rw [heightAll]
    omega

end

end Element

/-! ## Texts -/

/-- Nothing is read from within a character. -/
theorem parseAt_of_not_isBoundary {text : String} {offset : Nat} (hlt : offset < byteSize text.toList)
    (h : ¬ IsBoundary text.toList offset) : parseAt text offset = .error ⟨offset, .notABoundary⟩ := by
  have hmin := Nat.min_eq_left (Nat.le_of_lt hlt)
  have hnone : (Cursor.start text).forward? offset = none := by
    rw [Cursor.forward?_start_eq_none, hmin]
    exact h
  simp only [parseAt, hnone]

/-- What is read from a place on lies between it and the place behind. -/
theorem within_of_readNext {src : List Char} {c after : Cursor} {e : Element} (hin : c.In src)
    (h : readNext c = .ok (e, after)) :
    after.In src ∧ e.Within src c.pos after.pos ∧ e.height ≤ maxDepth := by
  unfold readNext at h
  split at h
  · cases h
  · rename_i here hmisc
    split at h
    · obtain ⟨m, -, hrest, hhere, -⟩ := exists_misc hmisc
      obtain ⟨u, hu, helement, hafter⟩ := exists_element h
      have hskipped : here.pos = c.pos + byteSize m := congrArg Cursor.pos hhere
      have hend : after.pos = here.pos + byteSize u := congrArg Cursor.pos hafter
      have hplace : here.In src := hin.forward hrest hskipped
      have hbehind : after.In src := hplace.forward hu hend
      have hwithin : e.Within src here.pos (here.pos + byteSize u) :=
        helement.within (show Cursor.In src ⟨here.pos, u ++ after.rest⟩ from hu ▸ hplace)
      have hheight := (helement.readable (by decide)).add_height_le
      rw [Nat.zero_add] at hheight
      rw [hend]
      exact ⟨hbehind, hwithin.mono (by omega) (Nat.le_refl _), hheight⟩
    · cases h

/-- What is read at an offset lies between that offset and the place behind it, and is not nested too
    deeply. -/
theorem within_of_parseAt {text : String} {offset : Nat} {e : Element} {after : Cursor}
    (h : parseAt text offset = .ok (e, after)) :
    offset < after.pos ∧ after.pos ≤ byteSize text.toList ∧
      e.Within text.toList offset after.pos ∧ e.height ≤ maxDepth := by
  unfold parseAt at h
  split at h
  · rename_i c hforward
    obtain ⟨hin, hpos⟩ := Cursor.forward?_start hforward
    obtain ⟨hbehind, hwithin, hheight⟩ := within_of_readNext hin h
    have hlt := hwithin.lt
    have hle := hbehind.pos_le
    -- There is something behind the place, so the offset is not past the end.
    have hoffset : c.pos = offset := by omega
    rw [hoffset] at hwithin hlt
    exact ⟨hlt, hle, hwithin, hheight⟩
  · cases h

end Lockstep.Markup
