import Lockstep.Proofs.Registry.Extent
import Lockstep.Proofs.Registry.Outline
import Lockstep.Proofs.Registry.RoundTrip

/- The two texts of a registry, read by the same function.

   1. A tidy forest is known by its names at the top and the entries at its paths (`ext_of_entries`), so
      registries with the same entries have the same forest.
   2. The elements of the top-level entries are loaded as they are, unless the registry looks wrapped: its only
      top-level entry is a container of the name that the text is read under. Then what lies below that is
      loaded in its place (`saidBy_unwrap`).
   3. So when the text of all entries restores a registry, that of the top-level entries is read as well. It
      restores the registry if and only if the registry does not look wrapped and its data are read again as
      they were, which they are if its name is a segment (`restored_from_roots_iff`). -/
namespace Lockstep.Registry
open Markup Forest

/-! ## Forests with the same entries -/

/-- The names that follow the first in a tidy forest lead to what they lead to without it. -/
theorem entryAt_tail {n : Node} {f : Forest} (h : Forest.Tidy (n :: f)) (p : Path) :
    entryAt p f = if p.head? = some n.name then none else entryAt p (n :: f) := by
  cases p with
  | nil => rfl
  | cons name rest =>
    have hchild : child? name f = if name = n.name then none else child? name (n :: f) := by
      split
      · rename_i hname
        exact child?_eq_none_iff.2 (hname ▸ h.2.1)
      · rename_i hname
        simp [child?, Ne.symm hname]
    have hhead : ((name :: rest).head? = some n.name) = (name = n.name) := by simp
    cases rest with
    | nil =>
      simp only [hhead, entryAt, get?, hchild]
      split <;> rfl
    | cons next rest =>
      simp only [hhead, entryAt, get?, hchild]
      split <;> rfl

theorem entryAt_cons_self (n : Node) (f : Forest) {p : Path} (hne : p ≠ []) :
    entryAt (n.name :: p) (n :: f) = entryAt p n.children := by
  rw [entryAt_cons n.name hne]
  simp [child?]

mutual

theorem Node.ext_of_entries (n : Node) {m : Node} (hn : n.Tidy) (hm : m.Tidy) (hname : n.name = m.name)
    (hself : n.entry = m.entry) (hbelow : ∀ p, entryAt p n.children = entryAt p m.children) :
    n = m := by
  cases n with
  | leaf name attributes datum =>
    cases m with
    | leaf name' attributes' datum' =>
      obtain ⟨hvalue, hattributes⟩ := Entry.mk.inj hself
      obtain rfl : name = name' := hname
      obtain rfl : attributes = attributes' := hattributes
      rw [Value.datum.inj hvalue]
    | branch name' attributes' children' => cases (Entry.mk.inj hself).1
  | branch name attributes children =>
    cases m with
    | leaf name' attributes' datum' => cases (Entry.mk.inj hself).1
    | branch name' attributes' children' =>
      obtain ⟨hvalue, hattributes⟩ := Entry.mk.inj hself
      obtain rfl : name = name' := hname
      obtain rfl : attributes = attributes' := hattributes
      rw [Forest.ext_of_entries children hn.2.2 hm.2.2 (Value.container.inj hvalue) hbelow]

/-- Tidy forests with the same names at the top and the same entries are the same. -/
theorem Forest.ext_of_entries (f : Forest) {g : Forest} (hf : Forest.Tidy f) (hg : Forest.Tidy g)
    (hnames : f.map Node.name = g.map Node.name) (h : ∀ p, entryAt p f = entryAt p g) : f = g := by
  cases f with
  | nil => exact (List.map_eq_nil_iff.1 hnames.symm).symm
  | cons n f =>
    cases g with
    | nil => cases hnames
    | cons m g =>
      obtain ⟨hname, hrest⟩ := List.cons.inj hnames
      have hself : n.entry = m.entry := by
        have hfirst := h [n.name]
        simp only [entryAt, get?, child?, hname, List.find?_cons, decide_true] at hfirst
        exact Option.some.inj hfirst
      have hbelow : ∀ p, entryAt p n.children = entryAt p m.children := by
        intro p
        by_cases hne : p = []
        · rw [hne]
          rfl
        · rw [← entryAt_cons_self n f hne, h, hname, entryAt_cons_self m g hne]
      rw [Node.ext_of_entries n hf.1 hg.1 hname hself hbelow]
      rw [Forest.ext_of_entries f hf.2.2 hg.2.2 hrest fun p => by
        rw [entryAt_tail hf, entryAt_tail hg, h, hname]]

end

/-- Registries with the same entries have the same forest. -/
theorem SameEntries.forest_eq {r r' : Registry} (h : SameEntries r r') (hr : Forest.Tidy r.forest)
    (hr' : Forest.Tidy r'.forest) : r.forest = r'.forest :=
  Forest.ext_of_entries r.forest hr hr' h.roots h.entries

/-! ## Forests read again -/

mutual

theorem Node.height_reread (n : Node) : n.reread.height = n.height := by
  cases n with
  | leaf name attributes datum => rfl
  | branch name attributes children =>
    rw [Node.reread, Node.height, Node.height, Forest.height_reread children]

theorem Forest.height_reread (f : Forest) : Forest.height (Forest.reread f) = Forest.height f := by
  cases f with
  | nil => rfl
  | cons n f =>
    rw [Forest.reread, Forest.height, Forest.height, n.height_reread, Forest.height_reread f]

end

/-- A registry whose data are all read again as they were. -/
def SelfReading (r : Registry) : Prop :=
  ∀ p d attributes, r.entry? p = some ⟨.datum d, attributes⟩ → d.reread (separatorOf attributes) = d

theorem reread_eq_self_iff {r : Registry} (hr : Forest.Tidy r.forest) :
    Forest.reread r.forest = r.forest ↔ r.SelfReading := by
  constructor
  · intro h p d attributes he
    obtain ⟨n, hn, hentry⟩ := Option.map_eq_some_iff.1 he
    have hreread := get?_reread p r.forest
    rw [h, hn, Option.map_some] at hreread
    cases n with
    | leaf name attributes' datum =>
      cases hentry
      exact (Node.leaf.inj (Option.some.inj hreread)).2.2.symm
    | branch name attributes' children => cases hentry
  · intro h
    refine Forest.reread_eq_self r.forest fun found (hfound : found ∈ Forest.listing [] r.forest) => ?_
    have hentry := entry?_of_mem_listing hr hfound
    obtain ⟨p, n⟩ := found
    cases n with
    | leaf name attributes datum => exact h p datum attributes hentry
    | branch name attributes children => trivial

/-! ## Elements in a wrapping -/

theorem marker_injective {kind kind' : Kind} (h : kind.marker = kind'.marker) : kind = kind' :=
  Option.some.inj ((ofMarker?_marker kind).symm.trans (h ▸ ofMarker?_marker kind'))

/-- Elements that say a forest are taken as they are, unless they say a container of the name alone. Then those
    in it are taken, which say what lies below the container. -/
theorem saidBy_unwrap {f : Forest} {es : List Element} (h : Forest.SaidBy f es) (name : String) :
    (∃ attributes children, f = [.branch name attributes children] ∧
        Forest.SaidBy children (unwrap name es)) ∨
      (∀ attributes children, f ≠ [.branch name attributes children]) ∧ unwrap name es = es := by
  match f with
  | [] =>
    obtain rfl := h
    exact .inr ⟨nofun, rfl⟩
  | n :: m :: f =>
    obtain ⟨e, _, rfl, -, e', rest, rfl, -⟩ := h
    exact .inr ⟨fun _ _ => by simp, rfl⟩
  | [.leaf leaf attributes datum] =>
    obtain ⟨e, _, rfl, ⟨-, hattributes, -⟩, rfl⟩ := h
    refine .inr ⟨fun _ _ => by simp, if_neg ?_⟩
    rintro ⟨-, hmarker⟩
    rw [Element.attribute?, hattributes] at hmarker
    have hkind := Option.some.inj ((if_pos rfl).symm.trans hmarker)
    exact datum.kind_ne_container (marker_injective hkind)
  | [.branch branch attributes children] =>
    obtain ⟨e, _, rfl, ⟨hname, hattributes, hchildren⟩, rfl⟩ := h
    by_cases hbranch : branch = name
    · subst hbranch
      have hmarker : e.attribute? kindKey = some Kind.container.marker := by
        rw [Element.attribute?, hattributes]
        exact if_pos rfl
      refine .inl ⟨attributes, children, rfl, ?_⟩
      rwa [show unwrap branch [e] = e.children from if_pos ⟨hname, hmarker⟩]
    · refine .inr ⟨fun _ _ heq => hbranch (Node.branch.inj (List.cons.inj heq).1).1, if_neg ?_⟩
      exact fun h => hbranch (hname.symm.trans h.1)

/-! ## Reading the texts -/

section
variable {r r' : Registry} {name : String}

/-- A text whose elements say a forest, once their wrapping is taken off, is read as the forest, its data
    reread. -/
theorem ofMarkup_of_saidBy {text : String} {es : List Element} {f : Forest}
    (hparse : parseAll text = .ok es) (hf : Forest.Tidy f) (hsaid : Forest.SaidBy f (unwrap name es)) :
    ofMarkup name text = .ok { empty name with forest := Forest.reread f } := by
  obtain ⟨ps, hload⟩ := loadAll_empty hf hsaid name
  simp only [ofMarkup, hparse, hload]

/-- The text of the top-level entries is read as these, or as what lies below the only one of them. -/
theorem ofMarkup_renderRoots (hr : Forest.Tidy r.forest) (hkeys : Forest.Keyed r.forest)
    (hd : Forest.height r.forest ≤ maxDepth) (name : String) :
    (∃ attributes children, r.forest = [.branch name attributes children] ∧
        ofMarkup name r.renderRoots = .ok { empty name with forest := Forest.reread children }) ∨
      (∀ attributes children, r.forest ≠ [.branch name attributes children]) ∧
        ofMarkup name r.renderRoots = .ok { empty name with forest := Forest.reread r.forest } := by
  obtain ⟨es, hparse, hsaid⟩ := exists_parseAll_renderRoots hr hkeys hd
  obtain ⟨attributes, children, hforest, hbelow⟩ | ⟨hne, hself⟩ := saidBy_unwrap hsaid name
  · rw [hforest] at hr
    exact .inl ⟨attributes, children, hforest, ofMarkup_of_saidBy hparse hr.1.2.2 hbelow⟩
  · exact .inr ⟨hne, ofMarkup_of_saidBy hparse hr (by rwa [hself])⟩

/-- All entries in a container of the name of the registry. -/
def enclosed (r : Registry) : Registry :=
  { empty r.name with forest := [.branch r.name [] r.forest] }

/-- The text of all entries is that of the container around them. -/
theorem renderRoots_enclosed (r : Registry) : r.enclosed.renderRoots = r.render := by
  rw [render_eq, renderRoots, enclosed, Forest.chars, Forest.chars, List.append_nil]

theorem keyed_enclosed (h : Forest.Keyed r.forest) : Forest.Keyed r.enclosed.forest := by
  intro found hfound
  rw [enclosed, Forest.listing, Forest.listing, List.append_nil] at hfound
  rcases List.mem_cons.1 hfound with rfl | hfound
  · exact nofun
  · rw [← List.append_nil ([] ++ [r.name]), Forest.listing_append] at hfound
    obtain ⟨listed, hlisted, rfl⟩ := List.mem_map.1 hfound
    exact h listed hlisted

/-- What restores a registry of a name that is a segment from the text of all entries has read its data as
    they were. -/
theorem selfReading_of_render (hr : Forest.Tidy r.forest) (hkeys : Forest.Keyed r.forest)
    (hname : isSegment r.name.toList = true) (hall : ofMarkup name r.render = .ok r')
    (hforest : r.forest = r'.forest) : r.SelfReading := by
  have htidy : Forest.Tidy r.enclosed.forest := ⟨⟨hname, tidyKeys_nil, hr⟩, List.not_mem_nil, trivial⟩
  have hkeyed := keyed_enclosed hkeys
  have hheight : Forest.height r.enclosed.forest = Forest.height r.forest + 1 := by
    rw [enclosed, Forest.height, Forest.height, Node.height, Nat.max_zero]
  rw [← renderRoots_enclosed] at hall
  by_cases hd : Forest.height r.enclosed.forest ≤ maxDepth
  · obtain ⟨attributes, children, heq, hread⟩ | ⟨-, hread⟩ :=
      ofMarkup_renderRoots htidy hkeyed hd name
    · obtain ⟨-, -, rfl⟩ := Node.branch.inj (List.cons.inj heq).1
      cases hall.symm.trans hread
      exact (reread_eq_self_iff hr).1 hforest.symm
    · -- With the container still around them, the entries would be one level higher than they are.
      cases hall.symm.trans hread
      have hsame := congrArg Forest.height hforest
      rw [Forest.height_reread, hheight] at hsame
      omega
  · obtain ⟨offset, hparse⟩ := parseAll_renderRoots_tooDeep htidy hkeyed (Nat.not_le.1 hd)
    simp only [ofMarkup, hparse] at hall
    cases hall

end

/-! ## Registries that are restored -/

/-- The only top-level entry is a container of the name. -/
def LooksWrapped (r : Registry) (name : String) : Prop :=
  r.roots = [name] ∧ ∃ names attributes, r.entry? [name] = some ⟨.container names, attributes⟩

theorem entry?_of_singleton {r : Registry} {n : Node} (h : r.forest = [n]) :
    r.entry? [n.name] = some n.entry := by
  refine entry?_of_get? ?_
  rw [h, get?, child?_singleton, if_pos rfl]

theorem looksWrapped_iff {r : Registry} {name : String} : r.LooksWrapped name ↔
    ∃ attributes children, r.forest = [.branch name attributes children] := by
  constructor
  · rintro ⟨hroots, names, attributes, he⟩
    rw [roots] at hroots
    obtain ⟨n, hforest, rfl⟩ := List.map_eq_singleton_iff.1 hroots
    rw [entry?_of_singleton hforest] at he
    cases n with
    | leaf leaf attributes' datum => cases Option.some.inj he
    | branch branch attributes' children => exact ⟨attributes', children, hforest⟩
  · rintro ⟨attributes, children, hforest⟩
    exact ⟨by rw [roots, hforest]; rfl, children.map Node.name, attributes,
      entry?_of_singleton hforest⟩

theorem eq_of_ofMarkup {name text : String} {r : Registry} (h : ofMarkup name text = .ok r) :
    r = { empty name with forest := r.forest } := by
  unfold ofMarkup at h
  split at h
  · cases h
  · rename_i es _
    obtain ⟨hname, hscopes, hsaved⟩ :=
      (changes_loadAll (empty name) (empty name).namespaceText (unwrap name es)).keeps
    split at h
    · cases h
    · rename_i hload
      rw [hload] at hname hscopes hsaved
      cases h
      obtain ⟨rname, forest, scopes, saved⟩ := r
      obtain rfl : rname = name := hname
      obtain rfl : scopes = [] := hscopes
      obtain rfl : saved = [] := hsaved
      rfl

/-- When the text of all entries restores a reachable registry, the text of its top-level entries is read as
    well. It restores the registry if and only if the registry does not look wrapped and its data are read again
    as they were; what it then gives is the same. The data are, if the name of the registry is a segment. If
    the registry looks wrapped, what lies below its only top-level entry is at the top of what is read. -/
theorem restored_from_roots_iff {r r' : Registry} (hr : Reachable r) {name : String}
    (hall : ofMarkup name r.render = .ok r') (hsame : SameEntries r r') :
    ∃ again, ofMarkup name r.renderRoots = .ok again ∧
      (SameEntries r again ↔ ¬ r.LooksWrapped name ∧ r.SelfReading) ∧
      (SameEntries r again → again = r') ∧
      (isSegment r.name.toList = true → r.SelfReading) ∧
      (r.LooksWrapped name →
        ∃ attributes, r.entry? [name] = some ⟨.container again.roots, attributes⟩) := by
  have htidy := (tidy_of_reachable hr).forest
  have hforest := hsame.forest_eq htidy (tidy_ofMarkup hall).forest
  have hwritable : r.Writable :=
    ⟨fun he => (writable_ofMarkup hall).entries ((hsame.entries _).symm.trans he)⟩
  have hkeyed := hwritable.keyed htidy
  have hreading : isSegment r.name.toList = true → r.SelfReading := fun hname =>
    selfReading_of_render htidy hkeyed hname hall hforest
  -- Whatever is read, it restores the registry when it has its forest, and is then what was restored before.
  have hrestores : ∀ {again}, ofMarkup name r.renderRoots = .ok again →
      (SameEntries r again ↔ again.forest = r.forest) ∧ (again.forest = r.forest → again = r') := by
    intro again hagain
    refine ⟨⟨fun h => (h.forest_eq htidy (tidy_ofMarkup hagain).forest).symm,
      fun h => sameEntries_of_forest h.symm⟩, fun h => ?_⟩
    rw [eq_of_ofMarkup hagain, eq_of_ofMarkup hall, h, hforest]
  obtain ⟨attributes, children, hwrapped, hagain⟩ | ⟨hplain, hagain⟩ :=
    ofMarkup_renderRoots htidy hkeyed (hwritable.height_le htidy) name
  · have hlooks := looksWrapped_iff.2 ⟨attributes, children, hwrapped⟩
    have hother : Forest.reread children ≠ r.forest := by
      intro heq
      have hheight := congrArg Forest.height heq
      rw [Forest.height_reread, hwrapped, Forest.height, Forest.height, Node.height] at hheight
      omega
    obtain ⟨hsameIff, hequal⟩ := hrestores hagain
    refine ⟨_, hagain, ?_, fun h => hequal (hsameIff.1 h), hreading, fun _ => ⟨attributes, ?_⟩⟩
    · exact ⟨fun h => absurd (hsameIff.1 h) hother, fun h => absurd hlooks h.1⟩
    · rw [roots, map_name_reread]
      exact entry?_of_singleton hwrapped
  · obtain ⟨hsameIff, hequal⟩ := hrestores hagain
    have hnot : ¬ r.LooksWrapped name := fun h => by
      obtain ⟨attributes, children, hwrapped⟩ := looksWrapped_iff.1 h
      exact hplain attributes children hwrapped
    refine ⟨_, hagain, ?_, fun h => hequal (hsameIff.1 h), hreading, fun h => absurd h hnot⟩
    rw [hsameIff, and_iff_right hnot]
    exact reread_eq_self_iff htidy

/-- A top-level container of the name of the registry, with a leaf beside it. -/
def namesake : Registry := (empty "index").after
  [.add "/index/x" (.datum (.int 1)), .add "/note" (.datum (.texts ["a", ""]))]

/-- It is restored from both texts, and to the same. -/
theorem restored_from_roots_namesake :
    namesake.roots = ["index", "note"] ∧ ∃ r', ofMarkup "index" namesake.render = .ok r' ∧
      SameEntries namesake r' ∧ ofMarkup "index" namesake.renderRoots = .ok r' := by
  have hreachable : Reachable namesake := (Reachable.empty "index").after _
  have hlegible : namesake.Legible := legible_of_listing (by decide +kernel)
  have hroots : namesake.roots = ["index", "note"] := by decide +kernel
  have hall : ofMarkup "index" namesake.render = _ :=
    ofMarkup_render (tidy_of_reachable hreachable).forest hlegible (by decide +kernel)
  have hsame : SameEntries namesake { empty "index" with forest := namesake.forest } :=
    sameEntries_of_forest rfl
  obtain ⟨again, hagain, hiff, hequal, hreading, -⟩ := restored_from_roots_iff hreachable hall hsame
  have hplain : ¬ namesake.LooksWrapped "index" := fun h =>
    absurd (hroots.symm.trans h.1) (by decide)
  have hrestored := hiff.2 ⟨hplain, hreading (by decide +kernel)⟩
  exact ⟨hroots, _, hall, hsame, hequal hrestored ▸ hagain⟩

/-! ## Registries that are restored from one text only -/

/-- A container of the name of the registry alone at the top. -/
def doubled : Registry := (empty "a").after [.add "/a/x" (.datum (.int 1))]

/-- A name that is itself markup: an element with another numeral for the one number of the registry, and the
    start of a comment. -/
def disguise : String := "a type=\"floatarray\" separator=\"1\">0.99999999</a><!--"

/-- A number whose numeral the separator cuts, in a registry of that name. -/
def disguised : Registry := (empty disguise).after
  [.add "/a" (.datum (.floats [⟨0x3f800000⟩])), .setAttribute "/a" "separator" "1"]

/-- A registry with a leaf alone at the top has nothing else. -/
theorem forest_eq_leaf {r : Registry} {name : String} {d : Datum} {attributes : Attributes}
    (hroots : r.roots = [name]) (he : r.entry? [name] = some ⟨.datum d, attributes⟩) :
    r.forest = [.leaf name attributes d] := by
  rw [roots] at hroots
  obtain ⟨n, hforest, rfl⟩ := List.map_eq_singleton_iff.1 hroots
  rw [entry?_of_singleton hforest] at he
  cases n with
  | leaf leaf attributes' datum =>
    cases Option.some.inj he
    exact hforest
  | branch branch attributes' children => cases Option.some.inj he

/-- The text of all entries restores both, and that of the top-level entries neither. -/
theorem restored_from_roots_fails :
    (Reachable doubled ∧ ∃ r' again, ofMarkup "a" doubled.render = .ok r' ∧ SameEntries doubled r' ∧
      ofMarkup "a" doubled.renderRoots = .ok again ∧ ¬ SameEntries doubled again) ∧
    Reachable disguised ∧ ∃ r' again, ofMarkup disguise disguised.render = .ok r' ∧
      SameEntries disguised r' ∧ ofMarkup disguise disguised.renderRoots = .ok again ∧
      ¬ SameEntries disguised again := by
  have hdoubled : Reachable doubled := (Reachable.empty "a").after _
  refine ⟨⟨hdoubled, ?_⟩, (Reachable.empty disguise).after _, ?_⟩
  · have hlegible : doubled.Legible := legible_of_listing (by decide +kernel)
    obtain ⟨again, hagain, hroots⟩ :=
      exists_ok_of_toOption (ofMarkup "a" doubled.renderRoots) (f := Registry.roots)
        (b := ["x"]) (by decide +kernel)
    refine ⟨_, again, ofMarkup_render (tidy_of_reachable hdoubled).forest hlegible (by decide +kernel),
      sameEntries_of_forest rfl, hagain, fun h => ?_⟩
    exact absurd (h.roots.trans hroots) (by decide +kernel)
  · obtain ⟨r', hall, hr'⟩ := exists_ok_of_toOption (ofMarkup disguise disguised.render)
      (f := fun r => (r.roots, r.entry? ["a"]))
      (b := (["a"], some ⟨.datum (.floats [⟨0x3f800000⟩]), [("separator", "1")]⟩)) (by decide +kernel)
    obtain ⟨again, hagain, hentry⟩ :=
      exists_ok_of_toOption (ofMarkup disguise disguised.renderRoots)
        (f := fun r => r.entry? ["a"])
        (b := some ⟨.datum (.floats [⟨0⟩, ⟨0⟩]), [("separator", "1")]⟩) (by decide +kernel)
    obtain ⟨hroots, he⟩ := Prod.mk.inj hr'
    have hforest : disguised.forest = r'.forest :=
      (forest_eq_leaf (by decide +kernel) (by decide +kernel)).trans (forest_eq_leaf hroots he).symm
    refine ⟨r', again, hall, sameEntries_of_forest hforest, hagain, fun h => ?_⟩
    exact absurd ((h.entries ["a"]).trans hentry) (by decide +kernel)

end Lockstep.Registry
