import Lockstep.Proofs.Markup.Elements

/- The grammar of whole texts, and that the parser follows it.

   1. `IsMisc` is what may stand around elements: blanks, comments and declarations. `IsDocument` is a
      list of elements with such texts in front of each and behind the last.
   2. `readAll_iff`: a text is parsed into a list of elements exactly when it is a document of them.
   3. An element has room for all of a document but its declarations: a document in which none begins
      (`Declares`) is content, with the same elements in it (`IsDocument.exists_fills`). -/
namespace Lockstep.Markup
open Text

/-! ## Around elements -/

/-- The beginning of a declaration. -/
def declarationOpening : List Char := ['<', '?']

/-- Blanks, comments and declarations. -/
inductive IsMisc : List Char → Prop
  | blanks {gap : List Char} (hg : IsGap gap) : IsMisc gap
  | comment {gap u v : List Char} (hg : IsGap gap) (hu : EndsFirst "-->".toList u)
      (hs : upcoming u = .comment) (hv : IsMisc v) : IsMisc (gap ++ (u ++ v))
  | declaration {gap u v : List Char} (hg : IsGap gap) (hu : EndsFirst "?>".toList u)
      (hs : declarationOpening <+: u) (hv : IsMisc v) : IsMisc (gap ++ (u ++ v))

/-- A text that does not begin with what stands around elements. -/
structure Standing (cs : List Char) : Prop where
  blank : StopsBy isAsciiBlank cs
  comment : upcoming cs ≠ .comment
  declaration : ¬ declarationOpening <+: cs

theorem standing_nil : Standing [] := ⟨stopsBy_nil _, by decide, by decide⟩

theorem exists_of_upcoming_comment {cs : List Char} (h : upcoming cs = .comment) :
    ∃ rest, cs = '<' :: '!' :: '-' :: '-' :: rest := by
  unfold upcoming at h
  split at h <;> cases h
  exact ⟨_, rfl⟩

section
variable {c after : Cursor} {pos : Nat} {rest : List Char}

theorem skipMisc_of_comment (hb : c.skipBlanks = ⟨pos, '<' :: '!' :: '-' :: '-' :: rest⟩)
    (hp : readPast "-->" ⟨pos, '<' :: '!' :: '-' :: '-' :: rest⟩ = .ok after) :
    skipMisc c = skipMisc after := by
  rw [skipMisc]
  split
  · rename_i heq
    rw [hb] at heq
    cases heq
    split
    · rename_i herror
      rw [hp] at herror
      cases herror
    · rename_i hok
      rw [hp] at hok
      cases hok
      rfl
  · rename_i heq
    rw [hb] at heq
    cases heq
  · rename_i hother _
    exact absurd hb (hother _ _)

theorem skipMisc_of_declaration (hb : c.skipBlanks = ⟨pos, '<' :: '?' :: rest⟩)
    (hp : readPast "?>" ⟨pos, '<' :: '?' :: rest⟩ = .ok after) : skipMisc c = skipMisc after := by
  rw [skipMisc]
  split
  · rename_i heq
    rw [hb] at heq
    cases heq
  · rename_i heq
    rw [hb] at heq
    cases heq
    split
    · rename_i herror
      rw [hp] at herror
      cases herror
    · rename_i hok
      rw [hp] at hok
      cases hok
      rfl
  · rename_i hother
    exact absurd hb (hother _ _)

theorem skipMisc_of_standing (hb : c.skipBlanks = ⟨pos, rest⟩) (hr : Standing rest) :
    skipMisc c = .ok ⟨pos, rest⟩ := by
  rw [skipMisc]
  split
  · rename_i heq
    rw [hb] at heq
    cases heq
    exact absurd rfl hr.comment
  · rename_i heq
    rw [hb] at heq
    cases heq
    exact absurd ⟨_, rfl⟩ hr.declaration
  · rw [hb]

end

/-- What stands around elements is skipped. -/
theorem IsMisc.skipMisc {m rest : List Char} (h : IsMisc m) (hr : Standing rest) (pos : Nat) :
    skipMisc ⟨pos, m ++ rest⟩ = .ok ⟨pos + byteSize m, rest⟩ := by
  induction h generalizing pos with
  | blanks hg => exact skipMisc_of_standing (skipBlanks_append pos rest hg hr.blank) hr
  | @comment gap u v hg hu hs _ ih =>
    obtain ⟨tail, rfl⟩ := exists_of_upcoming_comment hs
    have hblanks := skipBlanks_append pos ('<' :: '!' :: '-' :: '-' :: tail ++ (v ++ rest)) hg
      ((stopsBy_cons ..).2 (by decide))
    have hpast := passes_readPast hu (pos + byteSize gap) (v ++ rest)
    rw [List.append_assoc, List.append_assoc, skipMisc_of_comment hblanks hpast, ih]
    simp only [byteSize_append, Nat.add_assoc]
  | @declaration gap u v hg hu hs _ ih =>
    obtain ⟨tail, rfl⟩ := hs
    have hblanks := skipBlanks_append pos (declarationOpening ++ tail ++ (v ++ rest)) hg
      ((stopsBy_cons ..).2 (by decide))
    have hpast := passes_readPast hu (pos + byteSize gap) (v ++ rest)
    rw [List.append_assoc, List.append_assoc, skipMisc_of_declaration hblanks hpast, ih]
    simp only [byteSize_append, Nat.add_assoc]

/-- Where blanks and then a construct are gone over, there is a construct with blanks in front. -/
theorem exists_of_readPast_skipBlanks {ending : String} {c after : Cursor} {pos : Nat}
    {front : List Char} (hb : c.skipBlanks = ⟨pos, front⟩)
    (hp : readPast ending ⟨pos, front⟩ = .ok after) :
    ∃ gap u, IsGap gap ∧ EndsFirst ending.toList u ∧ front = u ++ after.rest ∧
      c.rest = gap ++ front ∧ after = ⟨c.pos + byteSize gap + byteSize u, after.rest⟩ := by
  obtain ⟨gap, hcs, hg, -, hplace⟩ := exists_skipBlanks c
  obtain ⟨u, hu, hends⟩ := exists_readPast hp
  rw [hb] at hcs hplace
  have hpos : pos = c.pos + byteSize gap := congrArg Cursor.pos hplace
  have hafter := (passes_readPast hends).place hu hp
  exact ⟨gap, u, hg, hends, hu, hcs, by rw [hafter, hpos]⟩

/-- What is skipped is what stands around elements. -/
theorem exists_misc {c here : Cursor} (h : skipMisc c = .ok here) :
    ∃ m, IsMisc m ∧ c.rest = m ++ here.rest ∧ here = ⟨c.pos + byteSize m, here.rest⟩ ∧
      Standing here.rest := by
  fun_induction skipMisc c with
  | case1 => cases h
  | case2 c pos tail hb after hp ih =>
    obtain ⟨gap, u, hg, hu, hfront, hcs, hafter⟩ := exists_of_readPast_skipBlanks hb hp
    obtain ⟨v, hv, hrest, hhere, hstands⟩ := ih h
    have hs : upcoming u = .comment := by
      rw [← upcoming_append_of_mem (hu.mem (by decide)) after.rest, ← hfront]
      rfl
    refine ⟨gap ++ (u ++ v), .comment hg hu hs hv, ?_, ?_, hstands⟩
    · rw [hcs, hfront, hrest]
      simp only [List.append_assoc]
    · rw [hhere, hafter]
      simp only [byteSize_append, Nat.add_assoc]
  | case3 => cases h
  | case4 c pos tail hb after hp ih =>
    obtain ⟨gap, u, hg, hu, hfront, hcs, hafter⟩ := exists_of_readPast_skipBlanks hb hp
    obtain ⟨v, hv, hrest, hhere, hstands⟩ := ih h
    have hs : declarationOpening <+: u := by
      have hlength : declarationOpening.length ≤ u.length := by
        obtain ⟨before, rfl, -⟩ := hu
        rw [List.length_append]
        exact Nat.le_add_left ..
      exact List.prefix_of_prefix_length_le ⟨tail, hfront⟩ (List.prefix_append u _) hlength
    refine ⟨gap ++ (u ++ v), .declaration hg hu hs hv, ?_, ?_, hstands⟩
    · rw [hcs, hfront, hrest]
      simp only [List.append_assoc]
    · rw [hhere, hafter]
      simp only [byteSize_append, Nat.add_assoc]
  | case5 c hcomment hdeclaration =>
    cases h
    obtain ⟨gap, hcs, hg, hstop, hplace⟩ := exists_skipBlanks c
    refine ⟨gap, .blanks hg, hcs, hplace, hstop, fun hs => ?_, fun hs => ?_⟩
    · obtain ⟨tail, htail⟩ := exists_of_upcoming_comment hs
      exact hcomment _ tail (by rw [← htail])
    · obtain ⟨tail, htail⟩ := hs
      exact hdeclaration _ tail (by rw [show '<' :: '?' :: tail = _ from htail])

/-! ## Documents -/

/-- Elements with texts around them that are skipped. -/
inductive IsDocument : Nat → List Char → List Element → Prop
  | done {pos : Nat} {m : List Char} (hm : IsMisc m) : IsDocument pos m []
  | element {pos : Nat} {m u v : List Char} {e : Element} {es : List Element} (hm : IsMisc m)
      (he : IsElement 0 (pos + byteSize m) u e) (hs : upcoming u = .opening)
      (hd : ¬ declarationOpening <+: u)
      (hv : IsDocument (pos + byteSize m + byteSize u) v es) :
      IsDocument pos (m ++ (u ++ v)) (e :: es)

theorem readAll_of_end {c here : Cursor} (hm : skipMisc c = .ok here) (hr : here.rest = []) :
    readAll c = .ok [] := by
  rw [readAll]
  split
  · rename_i herror
    rw [hm] at herror
    cases herror
  · rename_i hok
    rw [hm] at hok
    cases hok
    split
    · rfl
    · rename_i hcons
      rw [hr] at hcons
      cases hcons
    · rename_i hnil _
      exact absurd hr hnil

/-- Where an element stands, it is read, and then what follows it. -/
theorem readAll_of_bracket {c here : Cursor} {tail : List Char} (hm : skipMisc c = .ok here)
    (hr : here.rest = '<' :: tail) :
    readAll c =
      match readElement here with
      | .error f => .error f
      | .ok (e, after) =>
        match readAll after with
        | .error f => .error f
        | .ok es => .ok (e :: es) := by
  rw [readAll]
  split
  · rename_i herror
    rw [hm] at herror
    cases herror
  · rename_i hok
    rw [hm] at hok
    cases hok
    split
    · rename_i hnil
      rw [hr] at hnil
      cases hnil
    · split
      · rename_i herror
        simp only [herror]
      · rename_i hread
        exact hread ▸ rfl
    · rename_i hother
      exact absurd hr (hother tail)

/-- An element begins with a bracket and a character of its name. -/
theorem IsElement.exists_cons {depth pos : Nat} {u : List Char} {e : Element}
    (h : IsElement depth pos u e) : ∃ c tail, u = '<' :: c :: tail ∧ c ≠ '/' := by
  have htag : ∀ {u tag}, IsOpenTag u tag → ∃ c tail, u = '<' :: c :: tail ∧ c ≠ '/' := by
    rintro u tag ⟨key, v, ⟨hne, hname⟩, -, -, rfl, -⟩
    cases key with
    | nil => exact absurd rfl hne
    | cons c key =>
      refine ⟨c, key ++ v, rfl, ?_⟩
      rintro rfl
      exact absurd (hname '/' List.mem_cons_self) (by decide)
  cases h with
  | closed hu _ => exact htag hu
  | @around _ w z _ _ hu _ _ _ =>
    obtain ⟨c, tail, rfl, hc⟩ := htag hu
    exact ⟨c, tail ++ (w ++ z), rfl, hc⟩

theorem IsElement.bracket_mem {depth pos : Nat} {u : List Char} {e : Element}
    (h : IsElement depth pos u e) : '>' ∈ u := by
  cases h with
  | closed hu _ => exact hu.bracket_mem
  | around hu _ _ _ => exact List.mem_append_left _ hu.bracket_mem

theorem upcoming_of_ne_comment {c : Char} {tail : List Char} (hc : c ≠ '/')
    (h : upcoming ('<' :: c :: tail) ≠ .comment) : upcoming ('<' :: c :: tail) = .opening := by
  unfold upcoming at h ⊢
  split <;> simp_all

/-- What begins a construct of two characters does not hang on what follows them. -/
theorem declarationOpening_prefix_append {c d : Char} (tail rest : List Char) :
    declarationOpening <+: c :: d :: tail ++ rest ↔ declarationOpening <+: c :: d :: tail := by
  simp [declarationOpening]

theorem IsElement.standing {depth pos : Nat} {u : List Char} {e : Element}
    (h : IsElement depth pos u e) (hs : upcoming u = .opening) (hd : ¬ declarationOpening <+: u)
    (rest : List Char) : Standing (u ++ rest) := by
  have hupcoming := upcoming_append_of_mem h.bracket_mem rest
  obtain ⟨c, tail, rfl, -⟩ := h.exists_cons
  refine ⟨(stopsBy_cons ..).2 (by decide), ?_, mt (declarationOpening_prefix_append tail rest).1 hd⟩
  rw [hupcoming, hs]
  decide

/-- An element behind all that is skipped is announced as one. -/
theorem Standing.of_isElement {depth pos : Nat} {u rest : List Char} {e : Element}
    (h : Standing (u ++ rest)) (he : IsElement depth pos u e) :
    upcoming u = .opening ∧ ¬ declarationOpening <+: u := by
  have hcomment := h.comment
  rw [upcoming_append_of_mem he.bracket_mem] at hcomment
  obtain ⟨c, tail, rfl, hc⟩ := he.exists_cons
  exact ⟨upcoming_of_ne_comment hc hcomment,
    mt (declarationOpening_prefix_append tail rest).2 h.declaration⟩

/-- A document is read. -/
theorem IsDocument.readAll {pos : Nat} {cs : List Char} {es : List Element}
    (h : IsDocument pos cs es) : readAll ⟨pos, cs⟩ = .ok es := by
  induction h with
  | @done pos m hm =>
    have hskip := hm.skipMisc standing_nil pos
    rw [List.append_nil] at hskip
    exact readAll_of_end hskip rfl
  | @element pos m u v e es hm he hs hd _ ih =>
    have hskip := hm.skipMisc (he.standing hs hd v) pos
    have hread := he.readElement v
    obtain ⟨c, tail, rfl, -⟩ := he.exists_cons
    rw [readAll_of_bracket hskip rfl, hread]
    simp only [ih]

/-- What is read is a document. -/
theorem isDocument_of_readAll {pos : Nat} {cs : List Char} {es : List Element}
    (h : Markup.readAll ⟨pos, cs⟩ = .ok es) : IsDocument pos cs es := by
  induction hn : cs.length using Nat.strongRecOn generalizing pos cs es with
  | _ n ih =>
  subst hn
  rw [Markup.readAll] at h
  split at h
  · cases h
  · rename_i here hm
    obtain ⟨m, hmisc, hcs, hhere, hstands⟩ := exists_misc hm
    split at h
    · rename_i hnil
      cases h
      rw [hnil, List.append_nil] at hcs
      obtain rfl : cs = m := hcs
      exact .done hmisc
    · split at h
      · cases h
      · rename_i e after he
        split at h
        · cases h
        · rename_i es hrest
          cases h
          obtain ⟨pos', rest⟩ := here
          obtain ⟨u, rfl, helement, hafter⟩ := exists_element he
          obtain rfl : pos' = pos + byteSize m := congrArg Cursor.pos hhere
          obtain rfl : cs = m ++ (u ++ after.rest) := hcs
          obtain ⟨hopening, hdeclaration⟩ := hstands.of_isElement helement
          have hlength := List.length_pos_of_mem helement.bracket_mem
          rw [hafter] at hrest
          refine .element hmisc helement hopening hdeclaration (ih _ ?_ hrest rfl)
          simp only [List.length_append]
          omega
    · cases h

/-- A text is parsed into elements exactly when it is a document of them. -/
theorem readAll_iff {pos : Nat} {cs : List Char} {es : List Element} :
    Markup.readAll ⟨pos, cs⟩ = .ok es ↔ IsDocument pos cs es :=
  ⟨isDocument_of_readAll, IsDocument.readAll⟩

/-! ## Documents in elements -/

/-- An element in front of content is content. -/
theorem fills_of_isElement {depth pos : Nat} {u v : List Char} {e : Element} {o o' : Open}
    (he : IsElement depth pos u e) (hs : upcoming u = .opening) (hd : depth < maxDepth)
    (hv : Fills depth (pos + byteSize u) v (o.addChild e) o') :
    Fills depth pos (u ++ v) o o' := by
  cases he with
  | closed hu hc => exact .closed hu hs hc hd hv
  | @around u w z tag inner hu hc hw hz =>
    rw [upcoming_append_of_mem hu.bracket_mem] at hs
    rw [byteSize_append, byteSize_append, ← Nat.add_assoc, ← Nat.add_assoc] at hv
    rw [List.append_assoc, List.append_assoc]
    exact .element hu hs hc hd hw hz hv

/-- In front of a bracket or the end, blanks are character data that may stand in any content. -/
theorem exists_fills_gap {gap v : List Char} (hg : IsGap gap) (hv : StopsBy (· ≠ '<') v)
    (depth pos : Nat) (o : Open) :
    ∃ o₁, o₁.children = o.children ∧ ∀ {o'}, Fills depth (pos + byteSize gap) v o₁ o' →
      Fills depth pos (gap ++ v) o o' := by
  by_cases hnil : gap = []
  · subst hnil
    exact ⟨o, rfl, id⟩
  · have hbracket : ∀ c ∈ gap, c ≠ '<' := by
      rintro c hc rfl
      exact absurd (hg '<' hc) (by decide)
    exact ⟨o.addText gap, rfl, fun h => .text hnil hbracket hv h⟩

/-- So may all that stands around elements, up to the first declaration in it. -/
theorem IsMisc.exists_fills {m v : List Char} (h : IsMisc m)
    (hd : ∀ u w, m = u ++ (declarationOpening ++ w) → ¬ IsMisc u) (hv : StopsBy (· ≠ '<') v)
    (depth pos : Nat) (o : Open) :
    ∃ o₁, o₁.children = o.children ∧ ∀ {o'}, Fills depth (pos + byteSize m) v o₁ o' →
      Fills depth pos (m ++ v) o o' := by
  induction h generalizing pos o with
  | blanks hg => exact exists_fills_gap hg hv depth pos o
  | @comment gap u w hg hu hs _ ih =>
    have hbracket : StopsBy (· ≠ '<') (u ++ (w ++ v)) :=
      stopsBy_bracket_of_upcoming (by rw [upcoming_comment hu hs]; decide)
    obtain ⟨o₁, hchildren, hgap⟩ := exists_fills_gap hg hbracket depth pos o
    obtain ⟨o₂, hchildren', hrest⟩ := ih (fun u' w' hw hmisc => hd (gap ++ (u ++ u')) w'
      (by rw [hw]; simp only [List.append_assoc]) (.comment hg hu hs hmisc))
      (pos + byteSize gap + byteSize u) o₁
    refine ⟨o₂, hchildren'.trans hchildren, fun h => ?_⟩
    rw [byteSize_append, byteSize_append, ← Nat.add_assoc, ← Nat.add_assoc] at h
    rw [List.append_assoc, List.append_assoc]
    exact hgap (.comment hu hs (hrest h))
  | @declaration gap u w hg _ hs _ _ =>
    obtain ⟨tail, rfl⟩ := hs
    exact absurd (.blanks hg) (hd gap (tail ++ w) (by simp only [List.append_assoc]))

/-- A declaration begins where a document before it ends. -/
def Declares (pos : Nat) (cs : List Char) : Prop :=
  ∃ u w es, cs = u ++ (declarationOpening ++ w) ∧ IsDocument pos u es

/-- A document without declarations is content, and its elements are the children that it adds. -/
theorem IsDocument.exists_fills {pos : Nat} {cs : List Char} {es : List Element}
    (h : IsDocument pos cs es) (hd : ¬ Declares pos cs) (o : Open) :
    ∃ o', Fills 0 pos cs o o' ∧ o'.children = o.children ++ es := by
  induction h generalizing o with
  | @done pos m hm =>
    obtain ⟨o₁, hchildren, hfills⟩ := hm.exists_fills
      (fun u w hu hmisc => hd ⟨u, w, [], hu, .done hmisc⟩) (stopsBy_nil _) 0 pos o
    have hfills := hfills .done
    rw [List.append_nil] at hfills
    exact ⟨o₁, hfills, by rw [hchildren, List.append_nil]⟩
  | @element pos m u v e es hm he hs hnot hv ih =>
    have hbracket : StopsBy (· ≠ '<') (u ++ v) := by
      obtain ⟨c, tail, rfl, -⟩ := he.exists_cons
      exact (stopsBy_cons ..).2 (by decide)
    obtain ⟨o₁, hchildren, hfills⟩ := hm.exists_fills
      (fun u' w hu' hmisc => hd ⟨u', w ++ (u ++ v), [], by rw [hu']; simp only [List.append_assoc],
        .done hmisc⟩) hbracket 0 pos o
    have hrest : ¬ Declares (pos + byteSize m + byteSize u) v := by
      rintro ⟨u', w, es', rfl, hdoc⟩
      exact hd ⟨m ++ (u ++ u'), w, e :: es', by simp only [List.append_assoc],
        .element hm he hs hnot hdoc⟩
    obtain ⟨o', hfills', hadded⟩ := ih hrest (o₁.addChild e)
    refine ⟨o', hfills (fills_of_isElement he hs (by decide) hfills'), ?_⟩
    show o'.children = o.children ++ ([e] ++ es)
    rw [hadded, ← List.append_assoc, ← hchildren]
    rfl

end Lockstep.Markup
