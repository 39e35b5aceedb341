import Lockstep.Proofs.Markup.Elements
import Lockstep.Proofs.Markup.Document
import Lockstep.Proofs.Markup.Places

/- Tags over bytes are tags over characters.

   1. `Agrees R x r`: the checked result `x` is the result `r`, up to `R`. It is an error where `r` is one,
      the same one, and so it is never a trap. Steps that agree do so one after the other
      (`Agrees.andThen`).
   2. Each reader of bytes agrees with its namesake, at every place of every text (`openTagAt_agrees` and its
      like). The loops do as well, from any state on: a round leads to a later place, as what is left is
      shorter there. -/
namespace Lockstep.Markup.Bytewise
open Text

variable {ε α β γ δ : Type} {src : List Char} {c : Cursor}

/-! ## Results that agree -/

/-- A checked result that is a given one, up to a relation of what they hold. -/
def Agrees (R : α → β → Prop) (x : Checked ε α) (r : Except ε β) : Prop :=
  (∃ e, x = .error (.error e) ∧ r = .error e) ∨ ∃ a b, x = .ok a ∧ r = .ok b ∧ R a b

/-- The offset of a place in the text. -/
def IsAt (src : List Char) (pos : Nat) (c : Cursor) : Prop := pos = c.pos ∧ c.In src

/-- The same datum, and the offset of the place in the text where it ends. -/
def EndsAt (src : List Char) (x : α × Nat) (y : α × Cursor) : Prop := x.1 = y.1 ∧ IsAt src x.2 y.2

theorem Agrees.error (e : ε) {R : α → β → Prop} :
    Agrees R (.error (.error e)) (.error e) := .inl ⟨e, rfl, rfl⟩

theorem Agrees.ok {R : α → β → Prop} {a : α} {b : β} (h : R a b) :
    Agrees R (.ok a : Checked ε α) (.ok b) := .inr ⟨a, b, rfl, rfl, h⟩

/-- What is done after results that agree agrees if it does for what they hold. -/
theorem Agrees.andThen {R : α → β → Prop} {S : γ → δ → Prop} {x : Checked ε α} {r : Except ε β}
    {k : α → Checked ε γ} {s : Except ε δ} (h : Agrees R x r)
    (herror : ∀ e, r = .error e → s = .error e)
    (hok : ∀ a b, r = .ok b → R a b → Agrees S (k a) s) : Agrees S (x >>= k) s := by
  rcases h with ⟨e, rfl, hr⟩ | ⟨a, b, rfl, hr, hR⟩
  · rw [herror e hr]
    exact .error e
  · exact hok a b hr hR

theorem Agrees.andThenAt {S : γ → δ → Prop} {x : Checked ε Nat} {r : Except ε Cursor}
    {k : Nat → Checked ε γ} {s : Except ε δ} (h : Agrees (IsAt src) x r)
    (herror : ∀ e, r = .error e → s = .error e)
    (hok : ∀ c', r = .ok c' → c'.In src → Agrees S (k c'.pos) s) : Agrees S (x >>= k) s := by
  refine h.andThen herror ?_
  rintro pos c' hr ⟨rfl, hin⟩
  exact hok c' hr hin

theorem Agrees.andThenEnd {S : γ → δ → Prop} {x : Checked ε (α × Nat)} {r : Except ε (α × Cursor)}
    {k : α × Nat → Checked ε γ} {s : Except ε δ} (h : Agrees (EndsAt src) x r)
    (herror : ∀ e, r = .error e → s = .error e)
    (hok : ∀ a c', r = .ok (a, c') → c'.In src → Agrees S (k (a, c'.pos)) s) :
    Agrees S (x >>= k) s := by
  refine h.andThen herror fun y z hr hends => ?_
  obtain ⟨a, pos⟩ := y
  obtain ⟨b, c'⟩ := z
  obtain ⟨hab, hpos, hin⟩ := hends
  dsimp only at hab hpos hin
  subst hab hpos
  exact hok a c' hr hin

theorem Agrees.eq_error {R : α → β → Prop} {x : Checked ε α} {r : Except ε β} {e : ε}
    (h : Agrees R x r) (hr : r = .error e) : x = .error (.error e) := by
  rcases h with ⟨e', rfl, hr'⟩ | ⟨a, b, rfl, hr', -⟩
  · rw [hr] at hr'
    cases hr'
    rfl
  · rw [hr] at hr'
    cases hr'

theorem Agrees.eq_ok {x : Checked ε (α × Nat)} {r : Except ε (α × Cursor)} {a : α} {c' : Cursor}
    (h : Agrees (EndsAt src) x r) (hr : r = .ok (a, c')) : x = .ok (a, c'.pos) ∧ c'.In src := by
  rcases h with ⟨e, rfl, hr'⟩ | ⟨⟨b, pos⟩, z, rfl, hr', hab, hpos, hin⟩
  · rw [hr] at hr'
    cases hr'
  · rw [hr] at hr'
    cases hr'
    dsimp only at hab hpos hin
    subst hab hpos
    exact ⟨rfl, hin⟩

theorem Agrees.eq_place {x : Checked ε Nat} {r : Except ε Cursor} {c' : Cursor}
    (h : Agrees (IsAt src) x r) (hr : r = .ok c') : x = .ok c'.pos ∧ c'.In src := by
  rcases h with ⟨e, rfl, hr'⟩ | ⟨pos, c'', rfl, hr', rfl, hin⟩
  · rw [hr] at hr'
    cases hr'
  · rw [hr] at hr'
    cases hr'
    exact ⟨rfl, hin⟩

/-- A result that agrees with another in all it holds is that one. -/
theorem Agrees.eq_mapError {x : Checked ε α} {r : Except ε α} (h : Agrees Eq x r) :
    x = r.mapError .error := by
  rcases h with ⟨e, rfl, rfl⟩ | ⟨a, b, rfl, rfl, rfl⟩
  · rfl
  · rfl

/-! ## Tags -/

theorem nameAt_agrees (hc : c.In src) :
    Agrees (EndsAt src) (nameAt src c.pos) (readName c) := by
  have hstop := skipWhile_eq (ε := Fault) whole_endsNameByte.not hc
  have hslice := slice_eq (ε := Fault) hc
    (List.takeWhile_append_dropWhile (p := fun x => !endsName x) (l := c.rest)).symm
  have hin := hc.skipWhile fun x => !endsName x
  simp only [nameAt, bind, Except.bind, hstop, readName]
  cases htake : c.rest.takeWhile fun x => !endsName x with
  | nil =>
    have hplace : (c.skipWhile fun x => !endsName x).pos = c.pos := by
      rw [Cursor.skipWhile, htake, byteSize_nil, Nat.add_zero]
    rw [if_pos hplace]
    exact .error _
  | cons x xs =>
    have hplace : (c.skipWhile fun x => !endsName x).pos = c.pos + byteSize (x :: xs) := by
      rw [Cursor.skipWhile, htake]
    have hne : (c.skipWhile fun x => !endsName x).pos ≠ c.pos := by
      have hpos := x.utf8Size_pos
      rw [hplace, byteSize_cons]
      omega
    rw [htake, ← hplace] at hslice
    rw [if_neg hne, hslice]
    exact .ok ⟨rfl, rfl, hin⟩

theorem utf8Size_of_lt {x : Char} (hx : x.toNat < 128) : x.utf8Size = 1 := by
  rw [← String.length_utf8EncodeChar, utf8EncodeChar_of_lt hx, List.length_singleton]

theorem expect_agrees (hc : c.In src) (wanted : Char) (hw : wanted.toNat < 128) :
    Agrees (IsAt src) (expect src wanted c.pos) (Markup.expect wanted c) := by
  have hsize := utf8Size_of_lt hw
  by_cases hstands : standsAt src wanted c.pos = true
  · obtain ⟨rest, hrest⟩ := (standsAt_iff hc hw).1 hstands
    rw [expect, if_pos hstands, Markup.expect, hrest]
    dsimp only
    rw [if_pos rfl, hsize]
    refine .ok ⟨rfl, hc.forward (u := [wanted]) hrest ?_⟩
    rw [byteSize_cons, hsize, byteSize_nil]
  · have hother : Markup.expect wanted c = .error (c.fault (.expected wanted)) := by
      unfold Markup.expect
      split
      · rfl
      · rename_i first rest hrest
        rw [if_neg]
        rintro rfl
        exact hstands ((standsAt_iff hc hw).2 ⟨rest, hrest⟩)
    rw [expect, if_neg hstands, hother]
    exact .error _

theorem quotedAt_agrees (hc : c.In src) {quote : Char} (hq : quote.toNat < 128) :
    Agrees (EndsAt src) (quotedAt src quote c.pos) (readQuoted quote c) := by
  have hstop := skipWhile_eq (ε := Fault) (whole_ne hq) hc
  have hslice := slice_eq (ε := Fault) hc
    (List.takeWhile_append_dropWhile (p := (· ≠ quote)) (l := c.rest)).symm
  have hin := hc.skipWhile (· ≠ quote)
  obtain ⟨body, hbody, hall, hends, hplace⟩ := exists_skipWhile (· ≠ quote) c
  simp only [quotedAt, bind, Except.bind, hstop, readQuoted]
  cases hrest : (c.skipWhile (· ≠ quote)).rest with
  | nil =>
    rw [(peek_eq_none_iff hin).2 hrest]
    exact .error _
  | cons close rest =>
    have hpeek : (peek src (c.skipWhile (· ≠ quote)).pos).isSome = true := by
      rw [Option.isSome_iff_ne_none]
      intro hnone
      rw [(peek_eq_none_iff hin).1 hnone] at hrest
      cases hrest
    have hclose : close = quote := by
      rw [hrest] at hends
      simpa using (stopsBy_cons (· ≠ quote) close rest).1 hends
    have hsize := utf8Size_of_lt hq
    have hraw : slice src c.pos (c.skipWhile (· ≠ quote)).pos =
        (.ok (c.rest.takeWhile (· ≠ quote)) : Checked Fault (List Char)) := hslice
    rw [if_pos hpeek, hraw]
    dsimp only
    rw [unescape_eq]
    refine .ok ⟨rfl, ?_, hin.forward (u := [quote]) (by rw [hrest, hclose]; rfl) ?_⟩
    · rw [hclose, hsize]
    · rw [byteSize_cons, hclose, hsize, byteSize_nil]

theorem valueAt_agrees (hc : c.In src) :
    Agrees (EndsAt src) (valueAt src c.pos) (readValue c) := by
  -- Behind a quote there is a place again.
  have hnext : ∀ {quote : Char} {rest : List Char}, quote.toNat < 128 → c.rest = quote :: rest →
      Agrees (EndsAt src) (quotedAt src quote (c.pos + 1)) (readQuoted quote ⟨c.pos + 1, rest⟩) := by
    intro quote rest hq hrest
    have hin : Cursor.In src ⟨c.pos + 1, rest⟩ := by
      refine hc.forward (u := [quote]) hrest ?_
      rw [byteSize_cons, utf8Size_of_lt hq, byteSize_nil]
    exact quotedAt_agrees hin hq
  unfold valueAt readValue
  by_cases hdouble : standsAt src '"' c.pos = true
  · obtain ⟨rest, hrest⟩ := (standsAt_iff hc (by decide)).1 hdouble
    rw [if_pos hdouble, hrest]
    exact hnext (by decide) hrest
  · by_cases hsingle : standsAt src '\'' c.pos = true
    · obtain ⟨rest, hrest⟩ := (standsAt_iff hc (by decide)).1 hsingle
      rw [if_neg hdouble, if_pos hsingle, hrest]
      exact hnext (by decide) hrest
    · rw [if_neg hdouble, if_neg hsingle]
      split
      · rename_i rest hrest
        exact absurd ((standsAt_iff hc (by decide)).2 ⟨rest, hrest⟩) hdouble
      · rename_i rest hrest
        exact absurd ((standsAt_iff hc (by decide)).2 ⟨rest, hrest⟩) hsingle
      · exact .error _

theorem attributeAt_agrees (hc : c.In src) :
    Agrees (EndsAt src) (attributeAt src c.pos) (readAttribute c) := by
  refine (nameAt_agrees hc).andThenEnd (fun f hf => by rw [readAttribute, hf]) ?_
  intro key afterKey hname hkey
  simp only [skipBlanks_eq hkey]
  refine (expect_agrees hkey.skipBlanks '=' (by decide)).andThenAt
    (fun f hf => by simp only [readAttribute, hname, hf]) ?_
  intro afterSign hsign hin
  simp only [skipBlanks_eq hin]
  refine (valueAt_agrees hin.skipBlanks).andThenEnd
    (fun f hf => by simp only [readAttribute, hname, hsign, hf]) ?_
  intro text after hvalue hafter
  have hread : readAttribute c = .ok ((key, text), after) := by
    simp only [readAttribute, hname, hsign, hvalue]
  rw [hread]
  exact .ok ⟨rfl, rfl, hafter⟩

theorem dropPattern?_eq_none {pattern cs : List Char} (h : ∀ rest, cs ≠ pattern ++ rest) :
    dropPattern? pattern cs = none := by
  cases hdrop : dropPattern? pattern cs with
  | none => rfl
  | some rest => exact absurd (dropPattern?_eq_some.1 hdrop) (h rest)

/-- The place is neither in front of an end of a tag, nor at the end of the text. -/
def WithinTag (here : Cursor) : Prop :=
  (∀ rest, here.rest ≠ '/' :: '>' :: rest) ∧ (∀ rest, here.rest ≠ '>' :: rest) ∧ here.rest ≠ []

/-- There, an attribute is read. -/
theorem tagRound_attribute (hc : c.In src) (pairs : Attributes) (h : WithinTag c.skipBlanks) :
    tagRound src (pairs, c.pos) = attributeAt src c.skipBlanks.pos >>= fun x =>
      .ok (.again (pairs ++ [x.1], x.2)) := by
  obtain ⟨hcloses, hopens, hend⟩ := h
  have hin := hc.skipBlanks
  have hpattern : (dropPattern? ['/', '>'] c.skipBlanks.rest).isSome = false := by
    rw [dropPattern?_eq_none hcloses]
    rfl
  have hstands : ¬ standsAt src '>' c.skipBlanks.pos = true := by
    rw [standsAt_iff hin (by decide)]
    rintro ⟨rest, hrest⟩
    exact hopens rest hrest
  have hpeek : peek src c.skipBlanks.pos ≠ none := mt (peek_eq_none_iff hin).1 hend
  simp only [tagRound, bind, Except.bind, skipBlanks_eq hc, startsWith_eq hin, hpattern,
    Bool.false_eq_true, if_false, if_neg hstands, if_neg hpeek]
  rfl

/-- Behind it, the rest of the tag is gone on with. -/
theorem tagLoop_attribute (hc : c.In src) (pairs : Attributes) (h : WithinTag c.skipBlanks)
    {pair : String × String} {after : Cursor} (hread : readAttribute c.skipBlanks = .ok (pair, after)) :
    after.In src ∧ iterate (byteSize src) Prod.snd (tagRound src) (pairs, c.pos) =
      iterate (byteSize src) Prod.snd (tagRound src) (pairs ++ [pair], after.pos) := by
  obtain ⟨hpair, hafter⟩ := (attributeAt_agrees hc.skipBlanks).eq_ok hread
  have hround := tagRound_attribute hc pairs h
  have hlt := Nat.lt_of_lt_of_le (length_readAttribute_lt hread) (length_skipBlanks_le c)
  rw [hpair] at hround
  exact ⟨hafter, iterate_again hround (hc.pos_lt hafter hlt) hafter.pos_le⟩

/-- The rest of a tag is read attribute by attribute. -/
theorem tagLoop_agrees (hc : c.In src) (pairs : Attributes) :
    Agrees (EndsAt src) (iterate (byteSize src) Prod.snd (tagRound src) (pairs, c.pos))
      ((readTagEnd c).map fun found => ((pairs ++ found.1.1, found.1.2), found.2)) := by
  have hwithin : ∀ {c : Cursor}, (∀ pos rest, c.skipBlanks = ⟨pos, '/' :: '>' :: rest⟩ → False) →
      (∀ pos rest, c.skipBlanks = ⟨pos, '>' :: rest⟩ → False) →
      (∀ pos, c.skipBlanks = ⟨pos, []⟩ → False) → WithinTag c.skipBlanks := by
    intro c hcloses hopens hend
    refine ⟨fun rest h => ?_, fun rest h => ?_, fun h => ?_⟩
    · exact hcloses c.skipBlanks.pos rest (by rw [← h])
    · exact hopens c.skipBlanks.pos rest (by rw [← h])
    · exact hend c.skipBlanks.pos (by rw [← h])
  fun_induction readTagEnd c generalizing pairs with
  | case1 c pos rest hskip =>
    have hgap := skipBlanks_eq (ε := Fault) hc
    have hin := hc.skipBlanks
    have hpattern := startsWith_eq (ε := Fault) hin ['/', '>']
    rw [hskip] at hgap hin hpattern
    have hround : tagRound src (pairs, c.pos) = .ok (.done ((pairs, true), pos + 2)) := by
      simp only [tagRound, bind, Except.bind, hgap, hpattern]
      rfl
    rw [iterate_done hround]
    refine .ok ⟨?_, rfl, hin.forward (u := ['/', '>']) rfl rfl⟩
    simp only [List.append_nil]
  | case2 c pos rest hskip =>
    have hgap := skipBlanks_eq (ε := Fault) hc
    have hin := hc.skipBlanks
    have hpattern := startsWith_eq (ε := Fault) hin ['/', '>']
    rw [hskip] at hgap hin hpattern
    have hstands : standsAt src '>' pos = true := (standsAt_iff hin (by decide)).2 ⟨rest, rfl⟩
    have hround : tagRound src (pairs, c.pos) = .ok (.done ((pairs, false), pos + 1)) := by
      simp only [tagRound, bind, Except.bind, hgap, hpattern, hstands]
      rfl
    rw [iterate_done hround]
    refine .ok ⟨?_, rfl, hin.forward (u := ['>']) rfl rfl⟩
    simp only [List.append_nil]
  | case3 c pos hskip =>
    have hgap := skipBlanks_eq (ε := Fault) hc
    have hin := hc.skipBlanks
    have hpattern := startsWith_eq (ε := Fault) hin ['/', '>']
    rw [hskip] at hgap hin hpattern
    have hstands : standsAt src '>' pos = false := by
      rw [Bool.eq_false_iff]
      intro hstands
      obtain ⟨rest, hrest⟩ := (standsAt_iff hin (by decide)).1 hstands
      cases hrest
    have hpeek := (peek_eq_none_iff hin).2 rfl
    have hround : tagRound src (pairs, c.pos) = .error (.error ⟨pos, .unterminatedTag⟩) := by
      simp only [tagRound, bind, Except.bind, hgap, hpattern, hstands, hpeek]
      rfl
    rw [iterate_error hround]
    exact .error _
  | case4 c f hcloses hopens hend hread =>
    have hround := tagRound_attribute hc pairs (hwithin hcloses hopens hend)
    rw [(attributeAt_agrees hc.skipBlanks).eq_error hread] at hround
    rw [iterate_error hround]
    exact .error _
  | case5 c pair after f hrest hcloses hopens hend hread ih =>
    obtain ⟨hafter, hloop⟩ := tagLoop_attribute hc pairs (hwithin hcloses hopens hend) hread
    have hgoes := ih hafter (pairs ++ [pair])
    rw [hrest] at hgoes
    rw [hloop]
    exact hgoes
  | case6 c pair after found closesItself c' hrest hcloses hopens hend hread ih =>
    obtain ⟨hafter, hloop⟩ := tagLoop_attribute hc pairs (hwithin hcloses hopens hend) hread
    have hgoes := ih hafter (pairs ++ [pair])
    rw [hrest] at hgoes
    rw [hloop]
    simpa only [Except.map, List.append_assoc, List.singleton_append] using hgoes

theorem tagEndAt_agrees (hc : c.In src) : Agrees (EndsAt src) (tagEndAt src c.pos) (readTagEnd c) := by
  have hloop := tagLoop_agrees hc []
  have hmap : (readTagEnd c).map (fun found => (([] ++ found.1.1, found.1.2), found.2)) =
      readTagEnd c := by
    cases readTagEnd c <;> rfl
  rwa [hmap] at hloop

theorem openTagAt_agrees (hc : c.In src) : Agrees (EndsAt src) (openTagAt src c.pos) (readOpenTag c) := by
  refine (expect_agrees hc '<' (by decide)).andThenAt
    (fun f hf => by simp only [readOpenTag, hf]) ?_
  intro afterBracket hbracket hin
  refine (nameAt_agrees hin).andThenEnd (fun f hf => by simp only [readOpenTag, hbracket, hf]) ?_
  intro tagName afterName hname hin'
  refine (tagEndAt_agrees hin').andThenEnd
    (fun f hf => by simp only [readOpenTag, hbracket, hname, hf]) ?_
  intro found after hend hafter
  obtain ⟨attributes, closesItself⟩ := found
  have hread : readOpenTag c = .ok (⟨tagName, attributes, closesItself⟩, after) := by
    simp only [readOpenTag, hbracket, hname, hend]
  rw [hread]
  exact .ok ⟨rfl, rfl, hafter⟩

/-- A closing tag begins with two characters of one byte each. -/
theorem closeTagAt_agrees (hc : c.In src) {rest : List Char} (hrest : c.rest = '<' :: '/' :: rest)
    (wanted : String) :
    Agrees (IsAt src) (closeTagAt src wanted c.pos) (readCloseTag wanted c) := by
  have hin : Cursor.In src ⟨c.pos + 2, c.rest.drop 2⟩ := by
    refine hc.forward (u := ['<', '/']) ?_ rfl
    rw [hrest]
    rfl
  refine (nameAt_agrees hin).andThenEnd (fun f hf => by simp only [readCloseTag, hf]) ?_
  intro closing afterName hname hafter
  simp only [readCloseTag, hname]
  by_cases hwanted : closing = wanted
  · rw [if_pos hwanted, if_pos hwanted]
    simp only [bind, Except.bind, skipBlanks_eq hafter]
    exact expect_agrees hafter.skipBlanks '>' (by decide)
  · rw [if_neg hwanted, if_neg hwanted]
    exact .error _

/-! ## Between elements -/

theorem skipPast_agrees (hc : c.In src) (ending : String) :
    Agrees (IsAt src) (skipPast src ending.toList c.pos) (readPast ending c) := by
  simp only [skipPast, bind, Except.bind, sliceFrom_eq hc, readPast, Cursor.past?]
  cases hcut : cutPattern? ending.toList c.rest with
  | none => exact .error _
  | some parts =>
    refine .ok ⟨rfl, hc.forward (u := parts.1 ++ ending.toList) ?_ ?_⟩
    · exact cutPattern?_eq_some hcut
    · rw [byteSize_append, ← Nat.add_assoc]

/-- A construct is left behind, whichever of the two it is. -/
theorem miscLoop_construct (hc : c.In src) {ending : String} (hne : ending.toList ≠ [])
    (hround : miscRound src c.pos = skipPast src ending.toList c.skipBlanks.pos >>= fun pos =>
      .ok (.again pos)) :
    (∀ {f}, readPast ending c.skipBlanks = .error f →
        skipMisc src c.pos = .error (.error f)) ∧
      ∀ {after}, readPast ending c.skipBlanks = .ok after →
        after.In src ∧ skipMisc src c.pos = skipMisc src after.pos := by
  have hpast := skipPast_agrees hc.skipBlanks ending
  constructor
  · intro f hf
    rw [hpast.eq_error hf] at hround
    exact iterate_error hround
  · intro after hafter
    obtain ⟨hpos, hin⟩ := hpast.eq_place hafter
    have hlt := Nat.lt_of_lt_of_le (length_readPast_lt hne hafter) (length_skipBlanks_le c)
    rw [hpos] at hround
    exact ⟨hin, iterate_again hround (hc.pos_lt hin hlt) hin.pos_le⟩

theorem miscRound_comment (hc : c.In src) {rest : List Char}
    (hrest : c.skipBlanks.rest = '<' :: '!' :: '-' :: '-' :: rest) :
    miscRound src c.pos = skipPast src "-->".toList c.skipBlanks.pos >>= fun pos =>
      .ok (.again pos) := by
  have hin := hc.skipBlanks
  have hpattern := startsWith_eq (ε := Fault) hin ['<', '!', '-', '-']
  rw [hrest] at hpattern
  simp only [miscRound, bind, Except.bind, skipBlanks_eq hc, hpattern]
  rfl

theorem miscRound_declaration (hc : c.In src) {rest : List Char}
    (hrest : c.skipBlanks.rest = '<' :: '?' :: rest) :
    miscRound src c.pos = skipPast src "?>".toList c.skipBlanks.pos >>= fun pos =>
      .ok (.again pos) := by
  have hin := hc.skipBlanks
  have hpattern := startsWith_eq (ε := Fault) hin ['<', '!', '-', '-']
  have hpattern' := startsWith_eq (ε := Fault) hin ['<', '?']
  rw [hrest] at hpattern hpattern'
  simp only [miscRound, bind, Except.bind, skipBlanks_eq hc, hpattern, hpattern']
  rfl

theorem miscRound_other (hc : c.In src)
    (hcomment : ∀ rest, c.skipBlanks.rest ≠ '<' :: '!' :: '-' :: '-' :: rest)
    (hdeclaration : ∀ rest, c.skipBlanks.rest ≠ '<' :: '?' :: rest) :
    miscRound src c.pos = .ok (.done c.skipBlanks.pos) := by
  have hin := hc.skipBlanks
  have hpattern := startsWith_eq (ε := Fault) hin ['<', '!', '-', '-']
  have hpattern' := startsWith_eq (ε := Fault) hin ['<', '?']
  rw [dropPattern?_eq_none hcomment] at hpattern
  rw [dropPattern?_eq_none hdeclaration] at hpattern'
  simp only [miscRound, bind, Except.bind, skipBlanks_eq hc, hpattern, hpattern']
  rfl

theorem skipMisc_agrees (hc : c.In src) :
    Agrees (IsAt src) (skipMisc src c.pos) (Markup.skipMisc c) := by
  fun_induction Markup.skipMisc c with
  | case1 c pos rest hskip f hf =>
    have hround := miscRound_comment hc (by rw [hskip])
    rw [(miscLoop_construct hc (by decide) hround).1 (hskip ▸ hf)]
    exact .error f
  | case2 c pos rest hskip after hafter ih =>
    have hround := miscRound_comment hc (by rw [hskip])
    obtain ⟨hin, hloop⟩ := (miscLoop_construct hc (by decide) hround).2 (hskip ▸ hafter)
    rw [hloop]
    exact ih hin
  | case3 c pos rest hskip f hf =>
    have hround := miscRound_declaration hc (by rw [hskip])
    rw [(miscLoop_construct hc (by decide) hround).1 (hskip ▸ hf)]
    exact .error f
  | case4 c pos rest hskip after hafter ih =>
    have hround := miscRound_declaration hc (by rw [hskip])
    obtain ⟨hin, hloop⟩ := (miscLoop_construct hc (by decide) hround).2 (hskip ▸ hafter)
    rw [hloop]
    exact ih hin
  | case5 c hcomment hdeclaration =>
    have hround := miscRound_other hc (fun rest h => hcomment c.skipBlanks.pos rest (by rw [← h]))
      (fun rest h => hdeclaration c.skipBlanks.pos rest (by rw [← h]))
    have hdone : skipMisc src c.pos = .ok c.skipBlanks.pos := iterate_done hround
    rw [hdone]
    exact .ok ⟨rfl, hc.skipBlanks⟩

end Lockstep.Markup.Bytewise
