import Lockstep.Proofs.Registry.Growth
import Lockstep.Proofs.Registry.Path

/- How paths are spelt.

   1. A text spells a path when it has the segments with slashes between them, with any slashes around these and
      any blanks around those (`Path.SpeltBy`). A namespace is read from exactly the texts that spell it
      (`ofScope_eq_ok_iff`), and so is a name from the root (`ofName_eq_ok_iff`).
   2. A relative name without blanks around it is read as what it says below its namespace
      (`ofName_relative_iff`).
   3. The pieces between the slashes of a text are a path with that text (`Path.cut`), so that a path may be
      told from its text, and the text of a path below a namespace is that of the namespace with what follows
      (`text_append_cut`, `eq_of_text_eq`). -/
namespace Lockstep.Registry
open Text

namespace Path

/-! ## Segments -/

theorem ofSegments_eq_ok_iff {pieces : List (List Char)} {p : Path} :
    ofSegments pieces = .ok p ↔ pieces = p.map String.toList ∧ p.WellFormed := by
  constructor
  · intro h
    refine ⟨?_, wellFormed_of_ofSegments h⟩
    induction pieces generalizing p with
    | nil =>
      cases h
      rfl
    | cons cs rest ih =>
      unfold ofSegments at h
      split at h
      · split at h
        · cases h
        · rename_i q hq
          cases h
          rw [List.map_cons, ← ih hq, String.toList_ofList]
      · cases h
  · rintro ⟨rfl, h⟩
    exact ofSegments_map h

/-- The pieces of a text between its slashes. -/
def cut (cs : List Char) : Path := (cs.splitOn '/').map String.ofList

theorem map_toList_cut (cs : List Char) : (cut cs).map String.toList = cs.splitOn '/' := by
  simp [cut, Function.comp_def]

theorem joined_cut (cs : List Char) : (cut cs).joined = cs := by
  rw [joined, map_toList_cut, List.intercalate_splitOn]

theorem cut_ne_nil (cs : List Char) : cut cs ≠ [] := by
  simp [cut, List.splitOn_ne_nil]

theorem joined_append {p q : Path} (hp : p ≠ []) (hq : q ≠ []) :
    (p ++ q).joined = p.joined ++ '/' :: q.joined := by
  induction p with
  | nil => exact absurd rfl hp
  | cons segment rest ih =>
    cases rest with
    | nil =>
      obtain ⟨next, q, rfl⟩ := List.exists_cons_of_ne_nil hq
      rw [List.singleton_append, joined_cons_cons]
      simp [joined]
    | cons next rest =>
      have hrest := ih (List.cons_ne_nil next rest)
      rw [List.cons_append] at hrest ⊢
      rw [joined_cons_cons, List.cons_append, joined_cons_cons, hrest]
      simp

/-- A path with the pieces of a text below it is cut where it was joined. -/
theorem splitOn_joined_append_cut {p : Path} (h : p.WellFormed) (cs : List Char) :
    (p ++ cut cs).joined.splitOn '/' = (p ++ cut cs).map String.toList := by
  by_cases hp : p = []
  · subst hp
    rw [List.nil_append, joined_cut, map_toList_cut]
  · rw [joined_append hp (cut_ne_nil cs), joined_cut, List.splitOn_append_cons_self,
      splitOn_joined hp h, List.map_append, map_toList_cut]

/-- The text of a relative name in a namespace. -/
theorem text_append_cut (p : Path) (cs : List Char) :
    (p ++ cut cs).text = p.scopeText ++ String.ofList cs := by
  have hcut : (cut cs).text = "/" ++ String.ofList cs := by
    rw [← String.toList_inj, toList_text (cut_ne_nil cs), joined_cut]
    simp
  rw [text_append, hcut, scopeText, String.append_assoc]

/-- A path may be told from its text. -/
theorem eq_of_text_eq {p q : Path} {cs : List Char} (hp : p ≠ []) (hwf : p.WellFormed)
    (hq : q.WellFormed) (h : p.text = (q ++ cut cs).text) : p = q ++ cut cs := by
  have hne : q ++ cut cs ≠ [] := by simp [cut_ne_nil]
  rw [← String.toList_inj, toList_text hp, toList_text hne, List.cons.injEq] at h
  have hsplit := congrArg (List.splitOn '/') h.2
  rw [splitOn_joined hp hwf, splitOn_joined_append_cut hq] at hsplit
  exact (List.map_inj_right fun _ _ => String.toList_inj.1).1 hsplit

/-! ## Spellings -/

/-- The text has the segments of the path with slashes between them, any slashes around these, and any blanks
    around those. -/
def SpeltBy (p : Path) (text : String) : Prop :=
  ∃ before slashes more after, text.toList = before ++ (slashes ++ p.joined ++ more) ++ after ∧
    (∀ c ∈ before ++ after, isBlank c = true) ∧ ∀ c ∈ slashes ++ more, c = '/'

theorem mem_joined {p : Path} (h : p.WellFormed) {c : Char} (hc : c ∈ p.joined) :
    c = '/' ∨ isPlain c = true := by
  induction p with
  | nil => simp [joined] at hc
  | cons segment rest ih =>
    have hs := h segment List.mem_cons_self
    cases rest with
    | nil =>
      refine .inr (isPlain_of_mem hs ?_)
      simpa [joined, List.intercalate] using hc
    | cons next rest =>
      rw [joined_cons_cons, List.mem_append, List.mem_cons] at hc
      obtain hc | hc | hc := hc
      · exact .inr (isPlain_of_mem hs hc)
      · exact .inl hc
      · exact ih (fun s hs => h s (List.mem_cons_of_mem segment hs)) hc

/-- A path is spelt by a text when its segments are what is left without the blanks around the text and the
    slashes around the rest. -/
theorem speltBy_iff {p : Path} (h : p.WellFormed) {text : String} : p.SpeltBy text ↔
    stripBy (· = '/') (stripBy isBlank text.toList) = p.joined := by
  constructor
  · rintro ⟨before, slashes, more, after, htext, hblank, hslash⟩
    have hplain : ∀ c ∈ slashes ++ p.joined ++ more, isBlank c = false := by
      intro c hc
      have hc' : c ∈ slashes ++ more ∨ c ∈ p.joined := by
        simp only [List.mem_append] at hc ⊢
        exact or_right_comm.1 hc
      obtain hc | hc := hc'
      · rw [hslash c hc, isBlank_slash]
      · obtain rfl | hc := mem_joined h hc
        · exact isBlank_slash
        · exact isBlank_of_isPlain hc
    obtain ⟨hfront, hlast, -⟩ := stopsBy_joined h (f := fun c => decide (c = '/'))
      fun c hc => decide_eq_false (ne_slash_of_isPlain hc)
    rw [htext, stripBy_append (fun c hc => hblank c (List.mem_append_left _ hc))
        (stopsBy_of_forall hplain)
        (stopsBy_of_forall fun c hc => hplain c (List.mem_reverse.1 hc))
        (fun c hc => hblank c (List.mem_append_right _ hc)),
      stripBy_append (fun c hc => decide_eq_true (hslash c (List.mem_append_left _ hc))) hfront hlast
        (fun c hc => decide_eq_true (hslash c (List.mem_append_right _ hc)))]
  · intro hstrip
    obtain ⟨before, after, htext, hbefore, hafter, -⟩ := exists_stripBy isBlank text.toList
    obtain ⟨slashes, more, hinner, hslashes, hmore, -⟩ :=
      exists_stripBy (fun c => decide (c = '/')) (stripBy isBlank text.toList)
    rw [hstrip] at hinner
    refine ⟨before, slashes, more, after, by rw [← hinner]; exact htext, fun c hc => ?_, fun c hc => ?_⟩
    · exact (List.mem_append.1 hc).elim (hbefore c) (hafter c)
    · exact of_decide_eq_true ((List.mem_append.1 hc).elim (hslashes c) (hmore c))

theorem joined_eq_nil_iff {p : Path} (h : p.WellFormed) : p.joined = [] ↔ p = [] := by
  refine ⟨fun hjoined => ?_, fun hp => by rw [hp]; rfl⟩
  cases p with
  | nil => rfl
  | cons segment rest =>
    have hne := (stopsBy_joined h fun c hc => isBlank_of_isPlain hc).2.2 (List.cons_ne_nil segment rest)
    exact absurd hjoined hne

/-- What lies between the slashes around it is read as the path that it joins. -/
theorem ofSegments_splitOn_iff {cs : List Char} (hcs : cs ≠ []) {p : Path} :
    ofSegments (cs.splitOn '/') = .ok p ↔ p.WellFormed ∧ cs = p.joined := by
  rw [ofSegments_eq_ok_iff, and_comm]
  refine and_congr_right fun h => ⟨fun hsplit => ?_, fun hjoined => ?_⟩
  · rw [joined, ← hsplit, List.intercalate_splitOn]
  · have hne : p ≠ [] := fun hp => hcs (hjoined.trans ((joined_eq_nil_iff h).2 hp))
    rw [hjoined, splitOn_joined hne h]

/-- A namespace is read from the texts that spell it, and from no others. -/
theorem ofScope_eq_ok_iff {scope : String} {p : Path} :
    ofScope scope = .ok p ↔ p.WellFormed ∧ p.SpeltBy scope := by
  have hspelt : p.WellFormed ∧ p.SpeltBy scope ↔ p.WellFormed ∧
      stripBy (· = '/') (stripBy isBlank scope.toList) = p.joined :=
    and_congr_right fun h => speltBy_iff h
  rw [hspelt, ofScope]
  split
  · rename_i hnil
    rw [hnil]
    constructor
    · intro h
      cases h
      exact ⟨by simp [WellFormed], rfl⟩
    · rintro ⟨h, hjoined⟩
      rw [(joined_eq_nil_iff h).1 hjoined.symm]
  · rename_i hne
    exact ofSegments_splitOn_iff hne

/-- A text that starts with a slash still does without the blanks around it. -/
theorem head?_stripBy_isBlank {cs : List Char} (h : cs.head? = some '/') :
    (stripBy isBlank cs).head? = some '/' := by
  obtain ⟨rest, rfl⟩ := List.head?_eq_some_iff.1 h
  have hfront : StopsBy isBlank ('/' :: rest) := (stopsBy_cons ..).2 isBlank_slash
  rw [stripBy, dropWhile_eq_self hfront]
  obtain ⟨after, hsplit, hafter, -⟩ := exists_stripEndBy isBlank ('/' :: rest)
  cases hstrip : stripEndBy isBlank ('/' :: rest) with
  | nil =>
    rw [hstrip] at hsplit
    have hslash := hafter '/' (by rw [← List.nil_append after, ← hsplit]; exact List.mem_cons_self)
    rw [isBlank_slash] at hslash
    cases hslash
  | cons c cs =>
    rw [hstrip, List.cons_append, List.cons.injEq] at hsplit
    rw [← hsplit.1, List.head?_cons]

/-- A name from the root is read from the texts that spell it, whatever the namespace. -/
theorem ofName_eq_ok_iff {name scope : String} (hhead : name.toList.head? = some '/') {p : Path} :
    ofName name scope = .ok p ↔ p ≠ [] ∧ p.WellFormed ∧ p.SpeltBy name := by
  have hspelt : p ≠ [] ∧ p.WellFormed ∧ p.SpeltBy name ↔ p ≠ [] ∧ p.WellFormed ∧
      stripBy (· = '/') (stripBy isBlank name.toList) = p.joined :=
    and_congr_right fun _ => and_congr_right fun h => speltBy_iff h
  simp only [hspelt, ofName, qualified, if_pos (head?_stripBy_isBlank hhead)]
  split
  · rename_i hnil
    rw [hnil]
    constructor
    · intro h
      cases h
    · rintro ⟨hne, h, hjoined⟩
      exact absurd ((joined_eq_nil_iff h).1 hjoined.symm) hne
  · rename_i hne
    rw [ofSegments_splitOn_iff hne]
    refine ⟨?_, fun h => h.2⟩
    rintro ⟨h, hjoined⟩
    exact ⟨fun hp => hne (hjoined.trans ((joined_eq_nil_iff h).2 hp)), h, hjoined⟩

theorem wellFormed_append {p q : Path} : (p ++ q).WellFormed ↔ p.WellFormed ∧ q.WellFormed :=
  List.forall_mem_append

theorem WellFormed.take {p : Path} (h : p.WellFormed) (k : Nat) : WellFormed (p.take k) :=
  fun segment hsegment => h segment (List.mem_of_mem_take hsegment)

theorem joined_append_cut_ne_nil (p : Path) {cs : List Char} (h : cs ≠ []) :
    (p ++ cut cs).joined ≠ [] := by
  by_cases hp : p = []
  · rw [hp, List.nil_append, joined_cut]
    exact h
  · rw [joined_append hp (cut_ne_nil cs)]
    simp

/-- A text that does not start with a slash is not all slashes. -/
theorem exists_stripEndBy_slash {cs : List Char} (hne : cs ≠ []) (hhead : cs.head? ≠ some '/') :
    ∃ c rest, stripEndBy (· = '/') cs = c :: rest ∧ c ≠ '/' := by
  obtain ⟨more, hcs, hmore, -⟩ := exists_stripEndBy (fun c => decide (c = '/')) cs
  cases hbody : stripEndBy (fun c => decide (c = '/')) cs with
  | nil =>
    obtain ⟨c, rest, rfl⟩ := List.exists_cons_of_ne_nil hne
    rw [hbody, List.nil_append] at hcs
    have hc := of_decide_eq_true (hmore c (by rw [← hcs]; exact List.mem_cons_self))
    exact absurd (by rw [hc, List.head?_cons]) hhead
  | cons c rest =>
    refine ⟨c, rest, rfl, fun hc => hhead ?_⟩
    rw [hcs, hbody, hc, List.cons_append, List.head?_cons]

/-- Of a relative name below a namespace, nothing is cut off but the slash before it and those behind it. -/
theorem stripBy_scopeText {s : Path} (h : s.WellFormed) {cs : List Char} (hne : cs ≠ [])
    (hhead : cs.head? ≠ some '/') : stripBy (· = '/') (s.scopeText.toList ++ cs) =
      (s ++ cut (stripEndBy (· = '/') cs)).joined := by
  obtain ⟨more, hcs, hmore, hlast⟩ := exists_stripEndBy (fun c => decide (c = '/')) cs
  obtain ⟨c, rest, hbody, hc⟩ := exists_stripEndBy_slash hne hhead
  have hfull : s.scopeText.toList ++ cs =
      ['/'] ++ (s ++ cut (stripEndBy (· = '/') cs)).joined ++ more := by
    have htext := congrArg String.toList (text_append_cut s (stripEndBy (· = '/') cs))
    rw [toList_text (by simp [cut_ne_nil]), String.toList_append, String.toList_ofList] at htext
    rw [List.singleton_append, htext, List.append_assoc, ← hcs]
  rw [hfull]
  have hfront : StopsBy (fun c => decide (c = '/')) (stripEndBy (· = '/') cs) := by
    rw [hbody, stopsBy_cons]
    exact decide_eq_false hc
  by_cases hs : s = []
  · subst hs
    rw [List.nil_append, joined_cut]
    exact stripBy_append (by simp) hfront hlast hmore
  · obtain ⟨hstart, -, hjoined⟩ := stopsBy_joined h (f := fun c => decide (c = '/'))
      fun c hc => decide_eq_false (ne_slash_of_isPlain hc)
    rw [joined_append hs (cut_ne_nil _), joined_cut]
    refine stripBy_append (by simp) (stopsBy_append (hjoined hs) hstart _) ?_ hmore
    rw [List.reverse_append, List.reverse_cons, List.append_assoc]
    exact stopsBy_append (by simp [hbody]) hlast _

/-- A relative name without blanks around it is read as what it says below its namespace. -/
theorem ofName_relative_iff {name scope : String} {s p : Path} (hscope : ofScope scope = .ok s)
    (hhead : name.toList.head? ≠ some '/') (hne : name.toList ≠ [])
    (htight : stripBy isBlank name.toList = name.toList) :
    ofName name scope = .ok p ↔ p = s ++ relativePath name ∧ (relativePath name).WellFormed := by
  have hs := wellFormed_of_ofScope hscope
  obtain ⟨c, rest, hbody, -⟩ := exists_stripEndBy_slash hne hhead
  have hjoined : (s ++ relativePath name).joined ≠ [] :=
    joined_append_cut_ne_nil s (by rw [hbody]; exact List.cons_ne_nil c rest)
  simp only [ofName, htight, qualified, if_neg hhead, hscope, Except.map, stripBy_scopeText hs hne hhead]
  split
  · rename_i hnil
    exact absurd hnil hjoined
  · rw [splitOn_joined_append_cut hs, ofSegments_eq_ok_iff]
    constructor
    · rintro ⟨hpieces, h⟩
      obtain rfl := (List.map_inj_right fun _ _ => String.toList_inj.1).1 hpieces
      exact ⟨rfl, (wellFormed_append.1 h).2⟩
    · rintro ⟨rfl, h⟩
      exact ⟨rfl, wellFormed_append.2 ⟨hs, h⟩⟩

/-! ## Names in a namespace -/

/-- A name is read without the blanks around it. -/
theorem ofName_trim (name scope : String) : ofName (trim name) scope = ofName name scope := by
  simp only [ofName, trim, String.toList_ofList, stripBy_stripBy]

/-- The empty name is the namespace itself. -/
theorem ofName_empty {s : Path} (hs : s.WellFormed) (hne : s ≠ []) : ofName "" s.scopeText = .ok s := by
  have hjoined := mt (joined_eq_nil_iff hs).1 hne
  have hstrip : stripBy (· = '/') s.scopeText.toList = s.joined := by
    rw [scopeText, String.toList_append, toList_text hne]
    exact stripBy_slashes hs ['/'] (by simp)
  simp only [ofName, show stripBy isBlank "".toList = [] from rfl, qualified, List.head?_nil,
    ofScope_scopeText hs, Except.map, List.append_nil, reduceCtorEq, if_false, hstrip]
  exact ofSegments_joined hne hs

theorem eq_of_ofName_empty {s p : Path} (hs : s.WellFormed) (hname : ofName "" s.scopeText = .ok p) :
    p = s := by
  by_cases hne : s = []
  · subst hne
    cases hname
  · exact Except.ok.inj (hname.symm.trans (ofName_empty hs hne))

theorem cut_joined {p : Path} (hne : p ≠ []) (h : p.WellFormed) : cut p.joined = p := by
  rw [cut, splitOn_joined hne h, List.map_map]
  exact (List.map_congr_left fun _ _ => String.ofList_toList).trans (List.map_id p)

theorem stripBy_slash_of_head? {cs : List Char} (hhead : cs.head? ≠ some '/') :
    stripBy (· = '/') cs = stripEndBy (· = '/') cs := by
  have hfront : StopsBy (fun c => decide (c = '/')) cs := by
    cases cs with
    | nil => exact stopsBy_nil _
    | cons c cs => exact (stopsBy_cons ..).2 (decide_eq_false fun hc => hhead (by rw [hc]; rfl))
  rw [stripBy, dropWhile_eq_self hfront]

/-- The ways in which a path is spelt in a namespace. Blanks aside, a name that starts with a slash spells the
    path itself; any other spells what follows the namespace in it. -/
inductive SpeltIn (p s : Path) (name : String) : Prop
  | absolute (hhead : (trim name).toList.head? = some '/') (h : p.SpeltBy name) : SpeltIn p s name
  | relative {q : Path} (hhead : (trim name).toList.head? ≠ some '/') (hp : p = s ++ q)
    (h : q.SpeltBy name) : SpeltIn p s name

section
variable {s p : Path} {name : String}

theorem speltIn_absolute_iff (hhead : (trim name).toList.head? = some '/') :
    p.SpeltIn s name ↔ p.SpeltBy name := by
  refine ⟨fun h => ?_, .absolute hhead⟩
  cases h with
  | absolute _ h => exact h
  | relative hne _ _ => exact absurd hhead hne

theorem speltIn_relative_iff (hhead : (trim name).toList.head? ≠ some '/') :
    p.SpeltIn s name ↔ ∃ q, p = s ++ q ∧ q.SpeltBy name := by
  refine ⟨fun h => ?_, fun ⟨_, hp, h⟩ => .relative hhead hp h⟩
  cases h with
  | absolute hslash _ => exact absurd hslash hhead
  | relative _ hp h => exact ⟨_, hp, h⟩

/-- A name is read in a namespace as the path that it spells there. -/
theorem ofName_scopeText_iff (hs : s.WellFormed) :
    ofName name s.scopeText = .ok p ↔ p ≠ [] ∧ p.WellFormed ∧ p.SpeltIn s name := by
  have hchars : (trim name).toList = stripBy isBlank name.toList := String.toList_ofList
  have htight : stripBy isBlank (trim name).toList = (trim name).toList := by
    rw [hchars, stripBy_stripBy]
  have hspelt : ∀ {q : Path}, q.WellFormed →
      (q.SpeltBy name ↔ stripBy (· = '/') (trim name).toList = q.joined) := fun hq => by
    rw [speltBy_iff hq, hchars]
  rw [← ofName_trim]
  by_cases hhead : (trim name).toList.head? = some '/'
  · rw [speltIn_absolute_iff hhead, ofName_eq_ok_iff hhead]
    refine and_congr_right fun _ => and_congr_right fun h => ?_
    rw [hspelt h, speltBy_iff h, htight]
  · rw [speltIn_relative_iff hhead]
    have hstrip := stripBy_slash_of_head? hhead
    by_cases hne : (trim name).toList = []
    · -- Nothing is left to follow the namespace, so the name is that of the namespace.
      have hnil : ∀ {q : Path}, q.WellFormed → (q.SpeltBy name ↔ q = []) := fun hq => by
        rw [hspelt hq, hne, ← joined_eq_nil_iff hq, eq_comm]
        rfl
      rw [String.toList_eq_nil_iff.1 hne]
      constructor
      · intro hname
        have hp := eq_of_ofName_empty hs hname
        exact ⟨ne_nil_of_ofName hname, wellFormed_of_ofName hname, [], by rw [hp, List.append_nil],
          (hnil (List.forall_mem_nil _)).2 rfl⟩
      · rintro ⟨hp, h, q, rfl, hq⟩
        obtain rfl := (hnil (wellFormed_append.1 h).2).1 hq
        rw [List.append_nil] at hp ⊢
        exact ofName_empty hs hp
    · have hscope := ofScope_scopeText hs
      have hrelative : (relativePath (trim name)).joined = stripBy (· = '/') (trim name).toList :=
        (joined_cut _).trans hstrip.symm
      rw [ofName_relative_iff hscope hhead hne htight]
      constructor
      · rintro ⟨rfl, hq⟩
        have hcut : relativePath (trim name) ≠ [] := cut_ne_nil _
        exact ⟨by simp [hcut], wellFormed_append.2 ⟨hs, hq⟩, _, rfl, (hspelt hq).2 hrelative.symm⟩
      · rintro ⟨-, h, q, rfl, hspells⟩
        have hq := (wellFormed_append.1 h).2
        have hjoined := (hspelt hq).1 hspells
        obtain ⟨c, rest, hbody, -⟩ := exists_stripEndBy_slash hne hhead
        have hqne : q ≠ [] := by
          rintro rfl
          rw [hstrip, hbody] at hjoined
          cases hjoined
        have hback : relativePath (trim name) = q := by
          rw [← cut_joined hqne hq, ← hjoined, hstrip]
          rfl
        rw [hback]
        exact ⟨rfl, hq⟩

/-- No path is spelt with a sign of assignment. -/
theorem SpeltBy.ne_sign (h : p.SpeltBy name) (hp : p.WellFormed) :
    ∀ c ∈ name.toList, c ≠ '=' := by
  obtain ⟨before, slashes, more, after, hname, hblank, hslash⟩ := h
  rintro c hc rfl
  have hcases : '=' ∈ before ++ after ∨ '=' ∈ slashes ++ more ∨ '=' ∈ p.joined := by
    rw [hname] at hc
    simp only [List.mem_append] at hc ⊢
    grind
  rcases hcases with hc | hc | hc
  · exact absurd (hblank _ hc) (by decide)
  · exact absurd (hslash _ hc) (by decide)
  · exact (mem_joined hp hc).elim (by decide) (by decide)

theorem SpeltIn.ne_sign (h : p.SpeltIn s name) (hp : p.WellFormed) : ∀ c ∈ name.toList, c ≠ '=' := by
  cases h with
  | absolute _ h => exact h.ne_sign hp
  | relative _ hcut h =>
    rw [hcut] at hp
    exact h.ne_sign (wellFormed_append.1 hp).2

end

end Path
end Lockstep.Registry
