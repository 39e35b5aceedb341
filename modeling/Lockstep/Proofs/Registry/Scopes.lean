import Mathlib.Data.List.Induction
import Lockstep.Proofs.Registry.Spelling
import Lockstep.Proofs.Registry.Tidy
import Lockstep.Registry.Scope

/- Relative names, from a namespace outward.

   1. A registry has an entry at a path when the text of the path is among its names (`mem_names`), also when
      the end of the path is any text that was put behind a namespace (`contains_append_cut`).
   2. From the text of a namespace, `outward` goes to that of the one with a segment less
      (`outward_scopeText`). So putting texts together tries the paths that the search tries, and ends as the
      search does (`climb_search`).
   3. What a relative name means is the entry in the nearest scope that has one; an absolute name means what it
      spells, and a namespace is the same however it is written (`resolve_nearest`). -/
namespace Lockstep.Registry
open Text Registry.Path

section
variable {r : Registry} {p relative found s : Path} {name : String} {k : Nat}

/-! ## Names of entries -/

/-- What stands at a path that has an entry. -/
theorem wellFormed_of_contains (h : Forest.Tidy r.forest) (hp : r.contains p = true) :
    p ≠ [] ∧ p.WellFormed := by
  obtain ⟨n, hn⟩ := Option.isSome_iff_exists.1 hp
  exact ⟨Forest.ne_nil_of_get? hn, h.wellFormed (by rw [hn]; exact Option.some_ne_none n)⟩

theorem mem_names (h : Forest.Tidy r.forest) {text : String} :
    text ∈ r.names ↔ ∃ p, r.contains p = true ∧ p.text = text := by
  simp only [names, sorted, List.mem_map, List.mem_mergeSort]
  constructor
  · rintro ⟨-, ⟨found, hfound, rfl⟩, rfl⟩
    obtain ⟨p, -, hpath, hget⟩ := Forest.get?_of_mem_forestListing h hfound
    refine ⟨p, ?_, by rw [hpath, List.nil_append]⟩
    rw [contains, hget]
    rfl
  · rintro ⟨p, hp, rfl⟩
    obtain ⟨n, hn⟩ := Option.isSome_iff_exists.1 hp
    exact ⟨_, ⟨(p, n), Forest.mem_listing_of_get? hn [], rfl⟩, rfl⟩

/-- Any text behind a namespace is the name of an entry when there is one at its pieces. -/
theorem contains_append_cut (h : Forest.Tidy r.forest) (hs : s.WellFormed) (cs : List Char) :
    r.contains (s ++ cut cs) = true ↔ s.scopeText ++ String.ofList cs ∈ r.names := by
  rw [mem_names h, ← text_append_cut]
  refine ⟨fun hcontains => ⟨_, hcontains, rfl⟩, ?_⟩
  rintro ⟨p, hp, htext⟩
  obtain ⟨hne, hwf⟩ := wellFormed_of_contains h hp
  rw [← eq_of_text_eq hne hwf hs htext]
  exact hp

/-! ## Scopes around scopes -/

theorem scopeText_eq_root_iff (hs : s.WellFormed) : s.scopeText = "/" ↔ s = [] := by
  refine ⟨fun htext => ?_, fun hnil => by rw [hnil]; rfl⟩
  have hscope := ofScope_scopeText hs
  rw [htext] at hscope
  exact (Except.ok.inj hscope).symm

/-- Around a namespace lies the one with a segment less. -/
theorem outward_scopeText (segment : String) (hs : (s ++ [segment]).WellFormed) :
    outward (s ++ [segment]).scopeText = s.scopeText := by
  have hsegment : isSegment segment.toList = true := hs segment (by simp)
  have hplain : ∀ c ∈ segment.toList, c ≠ '/' := fun c hc =>
    ne_slash_of_isPlain (isPlain_of_mem hsegment hc)
  have htext : (s ++ [segment]).scopeText.toList = (s.text.toList ++ '/' :: segment.toList) ++ ['/'] := by
    rw [scopeText, text_append_singleton, scopeText]
    simp
  have hstrip : stripEndBy (· = '/') (s ++ [segment]).scopeText.toList =
      s.text.toList ++ '/' :: segment.toList := by
    rw [htext]
    refine stripEndBy_append ?_ (by simp)
    rw [List.reverse_append, List.reverse_cons, List.append_assoc]
    refine stopsBy_append (List.reverse_ne_nil_iff.2 (ne_nil_of_isSegment hsegment)) ?_ _
    exact stopsBy_of_forall fun c hc => decide_eq_false (hplain c (List.mem_reverse.1 hc))
  rw [outward, hstrip, cutLast?_append hplain]
  cases s with
  | nil => rfl
  | cons first rest =>
    rw [toList_text (List.cons_ne_nil first rest)]
    dsimp only
    rw [← toList_text (List.cons_ne_nil first rest), String.ofList_toList, scopeText]

/-! ## The search -/

theorem search_concat (relative s : Path) (segment : String) :
    r.search relative (s ++ [segment]).reverse =
      if r.contains (s ++ [segment] ++ relative) = true then some (s ++ [segment] ++ relative)
      else r.search relative s.reverse := by
  rw [List.reverse_concat, search, List.reverse_cons, List.reverse_reverse]

/-- The search finds the entry in the nearest scope, or there is none in any of them. -/
theorem search_cases (r : Registry) (relative s : Path) :
    (∃ k ≤ s.length, r.search relative s.reverse = some (s.take k ++ relative) ∧
      r.contains (s.take k ++ relative) = true ∧
      ∀ j, k < j → j ≤ s.length → ¬ r.contains (s.take j ++ relative) = true) ∨
    r.search relative s.reverse = none ∧ ∀ j ≤ s.length, ¬ r.contains (s.take j ++ relative) = true := by
  induction s using List.reverseRecOn with
  | nil =>
    by_cases hcontains : r.contains relative = true
    · exact .inl ⟨0, Nat.le_refl 0, if_pos hcontains, hcontains,
        fun j hj hle => absurd hj (Nat.not_lt.2 hle)⟩
    · exact .inr ⟨if_neg hcontains, fun j _ => by rwa [List.take_nil]⟩
  | append_singleton s segment ih =>
    have hlength : (s ++ [segment]).length = s.length + 1 := List.length_append
    have hwhole : (s ++ [segment]).take (s.length + 1) = s ++ [segment] := by
      rw [← hlength, List.take_length]
    have hfront : ∀ j ≤ s.length, (s ++ [segment]).take j = s.take j := fun j hj =>
      List.take_append_of_le_length hj
    rw [search_concat, hlength]
    by_cases hcontains : r.contains (s ++ [segment] ++ relative) = true
    · refine .inl ⟨s.length + 1, Nat.le_refl _, ?_, ?_, fun j hj hle => by omega⟩
      · rw [if_pos hcontains, hwhole]
      · rwa [hwhole]
    · -- The innermost scope has none, so it is up to those around it.
      have hlast : ∀ j, s.length < j → j ≤ s.length + 1 →
          ¬ r.contains ((s ++ [segment]).take j ++ relative) = true := by
        intro j hj hle
        obtain rfl : j = s.length + 1 := by omega
        rwa [hwhole]
      rw [if_neg hcontains]
      obtain ⟨k, hk, hsearch, hfound, hnearer⟩ | ⟨hsearch, hnone⟩ := ih
      · refine .inl ⟨k, by omega, by rw [hfront k hk, hsearch], by rwa [hfront k hk], fun j hj hle => ?_⟩
        by_cases hshort : j ≤ s.length
        · rw [hfront j hshort]
          exact hnearer j hj hshort
        · exact hlast j (by omega) hle
      · refine .inr ⟨hsearch, fun j hle => ?_⟩
        by_cases hshort : j ≤ s.length
        · rw [hfront j hshort]
          exact hnone j hshort
        · exact hlast j (by omega) hle

/-! ## Going outward -/

/-- The way outward from a scope is the only one. -/
theorem Climb.unique {scope : String} {tried tried' : List String} {result result' : Option String}
    (h : Climb r name scope tried result) (h' : Climb r name scope tried' result') :
    tried = tried' ∧ result = result' := by
  induction h generalizing tried' result' with
  | found h =>
    cases h' with
    | found => exact ⟨rfl, rfl⟩
    | missing hmissing => exact absurd h hmissing
    | outward hmissing => exact absurd h hmissing
  | missing h =>
    cases h' with
    | found hfound => exact absurd hfound h
    | missing => exact ⟨rfl, rfl⟩
    | outward _ hscope => exact absurd rfl hscope
  | outward h hscope _ ih =>
    cases h' with
    | found hfound => exact absurd hfound h
    | missing => exact absurd rfl hscope
    | outward _ _ hrest =>
      obtain ⟨rfl, rfl⟩ := ih hrest
      exact ⟨rfl, rfl⟩

/-- Texts that are put together and looked up, from a namespace outward, lead to what the search finds, after
    one try for each segment of the namespace and one for the root at most. -/
theorem climb_search (h : Forest.Tidy r.forest) (cs : List Char) (hs : s.WellFormed) :
    ∃ tried, tried.length ≤ s.length + 1 ∧
      Climb r (String.ofList cs) s.scopeText tried ((r.search (cut cs) s.reverse).map Path.text) := by
  induction s using List.reverseRecOn with
  | nil =>
    have hcontains := contains_append_cut h hs cs
    rw [List.nil_append] at hcontains
    rw [List.reverse_nil, search]
    split
    · rename_i hfound
      have htext := text_append_cut [] cs
      rw [List.nil_append] at htext
      rw [Option.map_some, htext]
      exact ⟨_, Nat.le_refl _, .found (hcontains.1 hfound)⟩
    · rename_i hmissing
      exact ⟨_, Nat.le_refl _, .missing (mt hcontains.2 hmissing)⟩
  | append_singleton s segment ih =>
    have hcontains := contains_append_cut h hs cs
    rw [search_concat]
    split
    · rename_i hfound
      rw [Option.map_some, text_append_cut]
      exact ⟨_, by simp, .found (hcontains.1 hfound)⟩
    · rename_i hmissing
      obtain ⟨tried, hlength, hrest⟩ := ih (wellFormed_append.1 hs).1
      have hroot : scopeText (s ++ [segment]) ≠ "/" := by
        rw [Ne, scopeText_eq_root_iff hs]
        simp
      rw [← outward_scopeText segment hs] at hrest
      exact ⟨_, by simpa using hlength, .outward (mt hcontains.2 hmissing) hroot hrest⟩

/-! ## What a name means -/

/-- No other scope is the nearest one. -/
theorem Nearest.unique {k' : Nat} (h : r.Nearest s name k) (h' : r.Nearest s name k') : k = k' := by
  obtain ⟨hk, hfound, hnearer⟩ := h
  obtain ⟨hk', hfound', hnearer'⟩ := h'
  obtain hlt | heq | hlt := Nat.lt_trichotomy k k'
  · exact absurd hfound' (hnearer k' hlt hk')
  · exact heq
  · exact absurd hfound (hnearer' k hlt hk)

theorem contains_take (h : Forest.Tidy r.forest) (hs : s.WellFormed) (name : String) (k : Nat) :
    r.contains (s.take k ++ relativePath name) = true ↔ inScope s name k ∈ r.names :=
  contains_append_cut h (hs.take k) _

theorem nearest_or (h : Forest.Tidy r.forest) (hs : s.WellFormed) (name : String) :
    (∃ k, r.Nearest s name k ∧
      r.search (relativePath name) s.reverse = some (s.take k ++ relativePath name)) ∨
    (∀ k ≤ s.length, inScope s name k ∉ r.names) ∧ r.search (relativePath name) s.reverse = none := by
  obtain ⟨k, hk, hsearch, hfound, hnearer⟩ | ⟨hsearch, hnone⟩ := search_cases r (relativePath name) s
  · exact .inl ⟨k, ⟨hk, (contains_take h hs name k).1 hfound,
      fun j hj hle => mt (contains_take h hs name j).2 (hnearer j hj hle)⟩, hsearch⟩
  · exact .inr ⟨fun k hk => mt (contains_take h hs name k).2 (hnone k hk), hsearch⟩

variable {scope : String} {err : Error}

theorem resolve_relative (hhead : name.toList.head? ≠ some '/') (hscope : ofScope scope = .ok s) :
    r.resolve name scope = match r.search (relativePath name) s.reverse with
      | some found => .ok found
      | none => .error (.notFound (bareName name)) := by
  simp only [resolve, if_neg hhead, hscope]
  rfl

/-- A relative name means the entry in the nearest scope, and nothing when no scope has one. -/
theorem resolve_relative_iff (h : Forest.Tidy r.forest) (hhead : name.toList.head? ≠ some '/')
    (hscope : ofScope scope = .ok s) :
    (∀ found, r.resolve name scope = .ok found ↔
        r.contains found = true ∧ ∃ k, r.Nearest s name k ∧ found.text = inScope s name k) ∧
      ∀ err, r.resolve name scope = .error err ↔
        err = .notFound (bareName name) ∧ ∀ k ≤ s.length, inScope s name k ∉ r.names := by
  have hs := wellFormed_of_ofScope hscope
  rw [resolve_relative hhead hscope]
  obtain ⟨k, hnearest, hsearch⟩ | ⟨hnone, hsearch⟩ := nearest_or h hs name
  · have htext : Path.text (s.take k ++ relativePath name) = inScope s name k := text_append_cut _ _
    have hcontains := (contains_take h hs name k).2 hnearest.2.1
    simp only [hsearch]
    refine ⟨fun found => ⟨fun hfound => ?_, ?_⟩, fun err => ⟨nofun, ?_⟩⟩
    · cases hfound
      exact ⟨hcontains, k, hnearest, htext⟩
    · rintro ⟨hfound, k', hnearest', htext'⟩
      obtain rfl := hnearest.unique hnearest'
      obtain ⟨hne, hwf⟩ := wellFormed_of_contains h hfound
      rw [eq_of_text_eq hne hwf (hs.take k) (htext'.trans htext.symm)]
      rfl
    · rintro ⟨-, hnone⟩
      exact absurd hnearest.2.1 (hnone k hnearest.1)
  · simp only [hsearch]
    refine ⟨fun found => ⟨nofun, ?_⟩, fun err => ⟨fun herr => ?_, ?_⟩⟩
    · rintro ⟨-, k, hnearest, -⟩
      exact absurd hnearest.2.1 (hnone k hnearest.1)
    · cases herr
      exact ⟨rfl, hnone⟩
    · rintro ⟨rfl, -⟩
      rfl

/-- An absolute name means the entry that it spells. -/
theorem resolve_absolute_iff (h : Forest.Tidy r.forest) (hhead : name.toList.head? = some '/')
    (scope : String) : r.resolve name scope = .ok found ↔ r.contains found = true ∧ found.SpeltBy name := by
  simp only [resolve, if_pos hhead]
  constructor
  · intro hfound
    split at hfound
    · cases hfound
    · rename_i p hp
      split at hfound
      · rename_i hcontains
        cases hfound
        exact ⟨hcontains, ((ofName_eq_ok_iff hhead).1 hp).2.2⟩
      · cases hfound
  · rintro ⟨hcontains, hspelt⟩
    obtain ⟨hne, hwf⟩ := wellFormed_of_contains h hcontains
    rw [(ofName_eq_ok_iff hhead).2 ⟨hne, hwf, hspelt⟩]
    exact if_pos hcontains

/-- What a name means in a namespace, in whatever way the namespace is written. A relative name means the entry
    in the nearest scope, out to the root, in which there is one, and is not found when there is none; texts that
    are put together from the namespace outward come to the same, after at most one try more than the namespace
    has segments. An absolute name means the entry that it spells, whatever the namespace. -/
theorem resolve_nearest (h : Reachable r) (name : String) (hs : s.WellFormed) (hscope : s.SpeltBy scope) :
    (name.toList.head? ≠ some '/' →
      (∀ found, r.resolve name scope = .ok found ↔
        r.contains found = true ∧ ∃ k, r.Nearest s name k ∧ found.text = inScope s name k) ∧
      (∀ err, r.resolve name scope = .error err ↔
        err = .notFound (bareName name) ∧ ∀ k ≤ s.length, inScope s name k ∉ r.names) ∧
      ∃ tried, tried.length ≤ s.length + 1 ∧ ∀ tried' result,
        Climb r (bareName name) s.scopeText tried' result ↔
          tried' = tried ∧ result = (r.resolve name scope).toOption.map Path.text) ∧
    (name.toList.head? = some '/' → ∀ other, r.resolve name other = r.resolve name scope ∧
      ∀ found, r.resolve name other = .ok found ↔ r.contains found = true ∧ found.SpeltBy name) ∧
    ∀ other, s.SpeltBy other → r.resolve name other = r.resolve name scope := by
  have htidy := (tidy_of_reachable h).forest
  have hread := ofScope_eq_ok_iff.2 ⟨hs, hscope⟩
  refine ⟨fun hhead => ?_, fun hhead other => ⟨?_, fun found => resolve_absolute_iff htidy hhead other⟩,
    fun other hother => ?_⟩
  · obtain ⟨hok, herror⟩ := resolve_relative_iff htidy hhead hread
    refine ⟨hok, herror, ?_⟩
    obtain ⟨tried, hlength, hclimb⟩ := climb_search htidy (stripEndBy (· = '/') name.toList) hs
    have hresult : (r.resolve name scope).toOption = r.search (relativePath name) s.reverse := by
      rw [resolve_relative hhead hread]
      cases r.search (relativePath name) s.reverse <;> rfl
    rw [hresult]
    refine ⟨tried, hlength, fun tried' result => ⟨fun hother => hother.unique hclimb, ?_⟩⟩
    rintro ⟨rfl, rfl⟩
    exact hclimb
  · simp only [resolve, if_pos hhead]
  · simp only [resolve, hread, ofScope_eq_ok_iff.2 ⟨hs, hother⟩]

/-- An entry in a container, and one of its name at the top. -/
def terraced : Registry := (Registry.empty "index").after
  [.add "/x" (.datum (.int 1)), .add "/a/x" (.datum (.int 2)), .add "/a/b/y" (.datum (.int 3))]

theorem resolve_nearest_terraced :
    Reachable terraced ∧ WellFormed ["a", "b"] ∧ SpeltBy ["a", "b"] " a/b// " ∧
      terraced.resolve "x/" " a/b// " = .ok ["a", "x"] ∧ terraced.resolve "x/" "/a/b" = .ok ["a", "x"] ∧
      (∃ k, terraced.Nearest ["a", "b"] "x/" k ∧ "/a/x" = inScope ["a", "b"] "x/" k) ∧
      ∃ tried, Climb terraced "x" "/a/b/" tried (some "/a/x") := by
  have hreachable : Reachable terraced := (Reachable.empty "index").after _
  have hs : WellFormed ["a", "b"] := by decide +kernel
  have hspelt : SpeltBy ["a", "b"] " a/b// " := (speltBy_iff hs).2 (by decide +kernel)
  have hresolve : terraced.resolve "x/" " a/b// " = .ok ["a", "x"] := by decide +kernel
  obtain ⟨hrelative, -, hany⟩ := resolve_nearest hreachable "x/" hs hspelt
  obtain ⟨hok, -, tried, -, hclimb⟩ := hrelative (by decide)
  have hplain : SpeltBy ["a", "b"] "/a/b" := (speltBy_iff hs).2 (by decide +kernel)
  exact ⟨hreachable, hs, hspelt, hresolve, (hany "/a/b" hplain).trans hresolve, ((hok _).1 hresolve).2,
    tried, (hclimb _ _).2 ⟨rfl, by rw [hresolve]; rfl⟩⟩

end
end Lockstep.Registry
