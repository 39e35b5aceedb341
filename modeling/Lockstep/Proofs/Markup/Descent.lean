import Lockstep.Proofs.Markup.Bytewise

/- Elements and texts over bytes are those over characters.

   1. `elementAt` calls itself for each child, one level further down, where `run` puts the parent on a stack.
      `run_eq` and `contentRound_eq` are a round of each, by what comes next.
   2. A run is the reading of the innermost open element, and what is done with it (`resume`). The loop over
      bytes reads that element, whatever is open around it (`content_agrees`).
   3. So texts are read alike, and no slice and no loop of the parser is a trap (`parseAt_eq`,
      `parseAll_eq`). -/
namespace Lockstep.Markup.Bytewise
open Text

variable {src : List Char} {c : Cursor}

/-! ## Rounds -/

/-- What is done with an element that was read: it ends the run, or is a child of the element around it. -/
def resume : List Open → Element × Cursor → Except Fault (Element × Cursor)
  | [], found => .ok found
  | parent :: outer, found => run outer (parent.addChild found.1) found.2

/-- A round of the run, by what comes next. -/
theorem run_eq (outer : List Open) (o : Open) (c : Cursor) :
    run outer o c =
      match upcoming c.rest with
      | .nothing => .error (c.fault (.unclosed o.tag.name))
      | .closing => readCloseTag o.tag.name c >>= fun after => resume outer (o.close c.pos, after)
      | .comment => readPast "-->" c >>= run outer o
      | .opening =>
        if maxDepth ≤ outer.length + 1 then .error (c.fault .tooDeep)
        else readOpenTag c >>= fun found =>
          if found.1.closesItself then
            run outer (o.addChild ((Open.ofTag found.1 found.2.pos).close found.2.pos)) found.2
          else run (o :: outer) (Open.ofTag found.1 found.2.pos) found.2
      | .text => run outer (o.addText (c.rest.takeWhile (· ≠ '<'))) (c.skipWhile (· ≠ '<')) := by
  rw [run]
  split
  · rename_i hs
    rw [hs]
  · rename_i hs
    rw [hs]
    cases readCloseTag o.tag.name c with
    | error f => rfl
    | ok after => cases outer <;> rfl
  · rename_i hs
    rw [hs]
    cases readPast "-->" c <;> rfl
  · rename_i hs
    rw [hs]
    cases readOpenTag c <;> rfl
  · rename_i hs
    rw [hs]

/-- A round over bytes, by what comes next. -/
theorem contentRound_eq (hc : c.In src) (child : Nat → Checked Fault (Element × Nat)) (o : Open) :
    contentRound src child (o, c.pos) =
      match upcoming c.rest with
      | .nothing => .error (.error (c.fault (.unclosed o.tag.name)))
      | .closing => closeTagAt src o.tag.name c.pos >>= fun after => .ok (.done (o.close c.pos, after))
      | .comment => skipPast src "-->".toList c.pos >>= fun after => .ok (.again (o, after))
      | .opening => child c.pos >>= fun found => .ok (.again (o.addChild found.1, found.2))
      | .text => .ok (.again (o.addText (c.rest.takeWhile (· ≠ '<')), (c.skipWhile (· ≠ '<')).pos)) := by
  have hcloses := startsWith_eq (ε := Fault) hc ['<', '/']
  have hcomment := startsWith_eq (ε := Fault) hc ['<', '!', '-', '-']
  have hend := peek_eq_none_iff hc
  have hopens := standsAt_iff hc (x := '<') (by decide)
  have hstop := skipWhile_eq (ε := Fault) (whole_ne (x := '<') (by decide)) hc
  have hslice : slice src c.pos (c.skipWhile (· ≠ '<')).pos =
      (.ok (c.rest.takeWhile (· ≠ '<')) : Checked Fault (List Char)) :=
    slice_eq hc List.takeWhile_append_dropWhile.symm
  generalize hrest : c.rest = cs at *
  fun_cases upcoming cs with
  | case1 =>
    simp only [contentRound, if_pos (hend.2 rfl)]
    rfl
  | case2 rest =>
    have hmore : peek src c.pos ≠ none := mt hend.1 (List.cons_ne_nil _ _)
    simp only [contentRound, if_neg hmore, bind, Except.bind, hcloses]
    rfl
  | case3 rest =>
    have hmore : peek src c.pos ≠ none := mt hend.1 (List.cons_ne_nil _ _)
    simp only [contentRound, if_neg hmore, bind, Except.bind, hcloses, hcomment]
    rfl
  | case4 rest hclosing hcomments =>
    have hmore : peek src c.pos ≠ none := mt hend.1 (List.cons_ne_nil _ _)
    rw [dropPattern?_eq_none fun tail h => hclosing tail (List.cons.inj h).2] at hcloses
    rw [dropPattern?_eq_none fun tail h => hcomments tail (List.cons.inj h).2] at hcomment
    simp only [contentRound, if_neg hmore, bind, Except.bind, hcloses, hcomment, hopens.2 ⟨rest, rfl⟩]
    rfl
  | case5 _ hnil hclosing hcomments hopening =>
    have hother : ¬ standsAt src '<' c.pos = true := fun h => (hopens.1 h).elim hopening
    rw [dropPattern?_eq_none hclosing] at hcloses
    rw [dropPattern?_eq_none hcomments] at hcomment
    simp only [contentRound, if_neg (mt hend.1 hnil), bind, Except.bind, hcloses, hcomment, if_neg hother,
      hstop, hslice, unescape_eq]
    rfl

/-! ## Content -/

/-- From an open element on, the loop over bytes reads its content and its closing tag, and the run does
    the same and then goes on in the element around it. -/
def ClosesAlike (src : List Char) (levels : Nat) (outer : List Open) (o : Open) (c : Cursor) : Prop :=
  ∃ r : Except Fault (Element × Cursor),
    Agrees (EndsAt src)
      (iterate (byteSize src) Prod.snd (contentRound src (elementAt src levels)) (o, c.pos)) r ∧
    (∀ e after, r = .ok (e, after) → after.rest.length < c.rest.length) ∧
    run outer o c = r >>= resume outer

section
variable {levels : Nat} {outer : List Open} {o o' : Open} {c' : Cursor}

theorem ClosesAlike.error {f : Fault}
    (hround : contentRound src (elementAt src levels) (o, c.pos) = .error (.error f))
    (hrun : run outer o c = .error f) : ClosesAlike src levels outer o c := by
  refine ⟨.error f, ?_, nofun, hrun⟩
  rw [iterate_error hround]
  exact .error f

/-- A round that goes on leaves what is to be shown of the place it leads to. -/
theorem ClosesAlike.again (hc : c.In src) (hc' : c'.In src) (hlt : c'.rest.length < c.rest.length)
    (hround : contentRound src (elementAt src levels) (o, c.pos) = .ok (.again (o', c'.pos)))
    (hrun : run outer o c = run outer o' c') (h : ClosesAlike src levels outer o' c') :
    ClosesAlike src levels outer o c := by
  obtain ⟨r, hagrees, hshorter, hresume⟩ := h
  refine ⟨r, ?_, fun e after hr => Nat.lt_trans (hshorter e after hr) hlt, hrun.trans hresume⟩
  rwa [iterate_again hround (hc.pos_lt hc' hlt) hc'.pos_le]

end

/-- A child element, with everything in it, is read as one element over bytes, and by a run with one more
    element open over characters. -/
theorem child_agrees {levels : Nat} {outer : List Open} {o : Open} (hc : c.In src)
    (hdepth : levels + outer.length + 1 = maxDepth) (hs : upcoming c.rest = .opening)
    (ih : ∀ (levels : Nat) (outer : List Open) (o : Open) (c' : Cursor), c'.rest.length < c.rest.length →
      c'.In src → levels + outer.length + 1 = maxDepth → ClosesAlike src levels outer o c') :
    ∃ r : Except Fault (Element × Cursor), Agrees (EndsAt src) (elementAt src levels c.pos) r ∧
      (∀ e after, r = .ok (e, after) → after.rest.length < c.rest.length) ∧
      run outer o c = r >>= fun found => run outer (o.addChild found.1) found.2 := by
  rw [run_eq, hs]
  cases levels with
  | zero =>
    refine ⟨.error (c.fault .tooDeep), .error _, nofun, ?_⟩
    exact if_pos (by omega)
  | succ levels =>
    dsimp only
    rw [if_neg (by omega)]
    have hopen := openTagAt_agrees hc
    cases hread : readOpenTag c with
    | error f =>
      refine ⟨.error f, ?_, nofun, rfl⟩
      rw [elementAt, hopen.eq_error hread]
      exact .error f
    | ok found =>
      obtain ⟨tag, after⟩ := found
      obtain ⟨htag, hafter⟩ := hopen.eq_ok hread
      have hlt := length_readOpenTag_lt hread
      cases hcloses : tag.closesItself with
      | true =>
        refine ⟨.ok ((Open.ofTag tag after.pos).close after.pos, after), ?_, ?_, ?_⟩
        · simp only [elementAt, htag, bind, Except.bind, hcloses]
          exact .ok ⟨rfl, rfl, hafter⟩
        · intro e after' heq
          cases heq
          exact hlt
        · simp only [bind, Except.bind, hcloses]
          rfl
      | false =>
        obtain ⟨r, hagrees, hshorter, hresume⟩ := ih levels (o :: outer) (Open.ofTag tag after.pos) after hlt
          hafter (by rw [List.length_cons]; omega)
        refine ⟨r, ?_, fun e after' hr => Nat.lt_trans (hshorter e after' hr) hlt, ?_⟩
        · simp only [elementAt, htag, bind, Except.bind, hcloses]
          exact hagrees
        · simp only [bind, Except.bind, hcloses]
          exact hresume

/-- An open element is closed alike, whatever is open around it. -/
theorem content_agrees (hc : c.In src) {levels : Nat} {outer : List Open} {o : Open}
    (hdepth : levels + outer.length + 1 = maxDepth) : ClosesAlike src levels outer o c := by
  -- Behind a child its parent is gone on with, so the induction is on what is left.
  induction hn : c.rest.length using Nat.strongRecOn generalizing levels outer o c with
  | _ n ih =>
  subst hn
  have hround := contentRound_eq hc (elementAt src levels) o
  have hrun := run_eq outer o c
  cases hs : upcoming c.rest with
  | nothing =>
    rw [hs] at hround hrun
    exact .error hround hrun
  | closing =>
    rw [hs] at hround hrun
    dsimp only at hround hrun
    obtain ⟨rest, hrest⟩ := exists_of_upcoming_closing hs
    have hclose := closeTagAt_agrees hc hrest o.tag.name
    cases hread : readCloseTag o.tag.name c with
    | error f =>
      rw [hclose.eq_error hread] at hround
      rw [hread] at hrun
      exact .error hround hrun
    | ok after =>
      obtain ⟨hpos, hafter⟩ := hclose.eq_place hread
      rw [hpos] at hround
      rw [hread] at hrun
      refine ⟨.ok (o.close c.pos, after), ?_, ?_, hrun⟩
      · rw [iterate_done hround]
        exact .ok ⟨rfl, rfl, hafter⟩
      · intro e after' heq
        cases heq
        exact length_readCloseTag_lt hread
  | comment =>
    rw [hs] at hround hrun
    dsimp only at hround hrun
    have hpast := skipPast_agrees hc "-->"
    cases hread : readPast "-->" c with
    | error f =>
      rw [hpast.eq_error hread] at hround
      rw [hread] at hrun
      exact .error hround hrun
    | ok after =>
      obtain ⟨hpos, hafter⟩ := hpast.eq_place hread
      have hlt := length_readPast_lt (by decide) hread
      rw [hpos] at hround
      rw [hread] at hrun
      exact .again hc hafter hlt hround hrun (ih _ hlt hafter hdepth rfl)
  | opening =>
    obtain ⟨r, hchild, hshorter, hrun⟩ := child_agrees hc hdepth hs
      fun levels outer o c' hlt hc' hdepth => ih _ hlt hc' hdepth rfl
    rw [hs] at hround
    dsimp only at hround
    cases r with
    | error f =>
      rw [hchild.eq_error rfl] at hround
      exact .error hround hrun
    | ok found =>
      obtain ⟨e, after⟩ := found
      obtain ⟨hpos, hafter⟩ := hchild.eq_ok rfl
      have hlt := hshorter e after rfl
      rw [hpos] at hround
      exact .again hc hafter hlt hround hrun (ih _ hlt hafter hdepth rfl)
  | text =>
    rw [hs] at hround hrun
    have hlt := length_text_lt hs
    exact .again hc (hc.skipWhile _) hlt hround hrun (ih _ hlt (hc.skipWhile _) hdepth rfl)

/-! ## Texts -/

theorem elementAt_agrees (hc : c.In src) :
    Agrees (EndsAt src) (elementAt src maxDepth c.pos) (readElement c) := by
  obtain ⟨levels, hlevels⟩ : ∃ levels, maxDepth = levels + 1 := ⟨255, rfl⟩
  rw [hlevels, elementAt]
  refine (openTagAt_agrees hc).andThenEnd (fun f hf => by simp only [readElement, hf]) ?_
  intro tag after hread hafter
  simp only [readElement, hread]
  by_cases hcloses : tag.closesItself = true
  · rw [if_pos hcloses, if_pos hcloses]
    exact .ok ⟨rfl, rfl, hafter⟩
  · have hcontent : ClosesAlike src levels [] (Open.ofTag tag after.pos) after :=
      content_agrees hafter hlevels.symm
    obtain ⟨r, hagrees, -, hrun⟩ := hcontent
    have hr : r >>= resume [] = r := by cases r <;> rfl
    rw [if_neg hcloses, if_neg hcloses, hrun, hr]
    exact hagrees


theorem readNext_agrees (hc : c.In src) :
    Agrees (EndsAt src)
      (skipMisc src c.pos >>= fun pos =>
        if standsAt src '<' pos then elementAt src maxDepth pos
        else throw (.error ⟨pos, .expectedElement⟩))
      (readNext c) := by
  refine (skipMisc_agrees hc).andThenAt (fun f hf => by simp only [readNext, hf]) ?_
  intro here hread hin
  have hopens := standsAt_iff hin (x := '<') (by decide)
  simp only [readNext, hread]
  by_cases hstands : standsAt src '<' here.pos = true
  · obtain ⟨rest, hrest⟩ := hopens.1 hstands
    rw [if_pos hstands, hrest]
    exact elementAt_agrees hin
  · rw [if_neg hstands]
    split
    · rename_i rest hrest
      exact absurd (hopens.2 ⟨rest, hrest⟩) hstands
    · exact .error _

theorem parseAt_agrees (text : String) (offset : Nat) :
    Agrees (EndsAt text.toList) (parseAt text offset) (Markup.parseAt text offset) := by
  unfold parseAt Markup.parseAt
  dsimp only
  cases hforward : (Cursor.start text).forward? offset with
  | none =>
    rw [if_neg (Cursor.forward?_start_eq_none.1 hforward)]
    exact .error _
  | some c =>
    obtain ⟨hin, hpos⟩ := Cursor.forward?_start hforward
    rw [← hpos, if_pos hin.isBoundary]
    exact readNext_agrees hin

/-- In front of an element, a round reads it. -/
theorem documentRound_element (hc : c.In src) (done : List Element) {here : Cursor}
    (hmisc : Markup.skipMisc c = .ok here) {rest : List Char} (hrest : here.rest = '<' :: rest) :
    documentRound src (done, c.pos) = elementAt src maxDepth here.pos >>= fun found =>
      .ok (.again (done ++ [found.1], found.2)) := by
  obtain ⟨hpos, hin⟩ := (skipMisc_agrees hc).eq_place hmisc
  have hmore : peek src here.pos ≠ none := by
    rw [Ne, peek_eq_none_iff hin, hrest]
    exact List.cons_ne_nil _ _
  have hopens := (standsAt_iff hin (x := '<') (by decide)).2 ⟨rest, hrest⟩
  simp only [documentRound, bind, Except.bind, hpos, if_neg hmore, hopens]
  rfl

/-- Behind it, the rest of the document is gone on with. -/
theorem documentLoop_element (hc : c.In src) (done : List Element) {here : Cursor}
    (hmisc : Markup.skipMisc c = .ok here) {rest : List Char} (hrest : here.rest = '<' :: rest)
    {e : Element} {after : Cursor} (hread : readElement here = .ok (e, after)) :
    after.In src ∧ iterate (byteSize src) Prod.snd (documentRound src) (done, c.pos) =
      iterate (byteSize src) Prod.snd (documentRound src) (done ++ [e], after.pos) := by
  have hin := ((skipMisc_agrees hc).eq_place hmisc).2
  obtain ⟨helement, hafter⟩ := (elementAt_agrees hin).eq_ok hread
  have hround := documentRound_element hc done hmisc hrest
  have hlt := Nat.lt_of_lt_of_le (length_readElement_lt hread) (length_skipMisc_le hmisc)
  rw [helement] at hround
  exact ⟨hafter, iterate_again hround (hc.pos_lt hafter hlt) hafter.pos_le⟩

/-- The rest of a document is read element by element. -/
theorem documentLoop_agrees (hc : c.In src) (done : List Element) :
    Agrees Eq (iterate (byteSize src) Prod.snd (documentRound src) (done, c.pos))
      ((readAll c).map (done ++ ·)) := by
  fun_induction readAll c generalizing done with
  | case1 c f hmisc =>
    have hround : documentRound src (done, c.pos) = .error (.error f) := by
      simp only [documentRound, bind, Except.bind, (skipMisc_agrees hc).eq_error hmisc]
    rw [iterate_error hround]
    exact .error f
  | case2 c here hmisc hrest =>
    obtain ⟨hpos, hin⟩ := (skipMisc_agrees hc).eq_place hmisc
    have hround : documentRound src (done, c.pos) = .ok (.done done) := by
      simp only [documentRound, bind, Except.bind, hpos, if_pos ((peek_eq_none_iff hin).2 hrest)]
      rfl
    rw [iterate_done hround]
    exact .ok (List.append_nil _).symm
  | case3 c here hmisc rest hrest f hread =>
    have hin := ((skipMisc_agrees hc).eq_place hmisc).2
    have hround := documentRound_element hc done hmisc hrest
    rw [(elementAt_agrees hin).eq_error hread] at hround
    rw [iterate_error hround]
    exact .error f
  | case4 c here hmisc rest hrest e after hread f hall ih =>
    obtain ⟨hafter, hloop⟩ := documentLoop_element hc done hmisc hrest hread
    have hgoes := ih hafter (done ++ [e])
    rw [hall] at hgoes
    rw [hloop, hgoes.eq_error rfl]
    exact .error f
  | case5 c here hmisc rest hrest e after hread es hall ih =>
    obtain ⟨hafter, hloop⟩ := documentLoop_element hc done hmisc hrest hread
    have hgoes := ih hafter (done ++ [e])
    rw [hall] at hgoes
    rw [hloop]
    simpa only [Except.map, List.append_assoc, List.singleton_append] using hgoes
  | case6 c here hmisc hend hother =>
    obtain ⟨hpos, hin⟩ := (skipMisc_agrees hc).eq_place hmisc
    have hstands : ¬ standsAt src '<' here.pos = true := by
      rw [standsAt_iff hin (by decide)]
      intro hopens
      exact hopens.elim hother
    have hround : documentRound src (done, c.pos) = .error (.error (here.fault .textOutside)) := by
      simp only [documentRound, bind, Except.bind, hpos, if_neg (mt (peek_eq_none_iff hin).1 hend),
        if_neg hstands]
      rfl
    rw [iterate_error hround]
    exact .error _

/-- Whatever the text, its elements are read without a trap. -/
theorem parseAll_eq (text : String) : parseAll text = (Markup.parseAll text).mapError .error := by
  apply Agrees.eq_mapError
  have hloop := documentLoop_agrees (Cursor.In.start text) []
  have hmap : (readAll (.start text)).map ([] ++ ·) = Markup.parseAll text := by
    rw [Markup.parseAll]
    cases readAll (.start text) <;> rfl
  rwa [hmap] at hloop

/-- So is the element at or after any offset. -/
theorem parseAt_eq (text : String) (offset : Nat) :
    parseAt text offset =
      ((Markup.parseAt text offset).map fun found => (found.1, found.2.pos)).mapError .error := by
  rcases parseAt_agrees text offset with ⟨f, hx, hr⟩ | ⟨⟨e, pos⟩, ⟨e', after⟩, hx, hr, he, hpos, -⟩
  · rw [hx, hr]
    rfl
  · dsimp only at he hpos
    rw [hx, hr, he, hpos]
    rfl

end Lockstep.Markup.Bytewise
