import Lockstep.Proofs.Registry.Ledger

/- What holds of the entries of every registry that may be found.

   1. A forest is tidy when, at every level, the names are segments and no two are the same, and no
      entry has an attribute twice or one with the key of the kind.
   2. Changing a node keeps a forest tidy, and so does planting one under a well formed path
      (`Tidy.update`, `Tidy.plant`). A change does one or the other (`Tidy.change`), so every reachable
      registry is tidy (`tidy_of_reachable`). -/
namespace Lockstep.Registry

/-- Keys that are all different, without the key of the kind. -/
def TidyKeys (attributes : Attributes) : Prop :=
  (attributes.map Prod.fst).Nodup ∧ kindKey ∉ attributes.map Prod.fst

mutual

/-- A node with tidy attributes, under a segment, and tidy below. -/
def Node.Tidy : Node → Prop
  | .leaf name attributes _ => isSegment name.toList = true ∧ TidyKeys attributes
  | .branch name attributes children =>
    isSegment name.toList = true ∧ TidyKeys attributes ∧ Forest.Tidy children

/-- Tidy nodes under names of their own. -/
def Forest.Tidy : List Node → Prop
  | [] => True
  | n :: forest => n.Tidy ∧ n.name ∉ forest.map Node.name ∧ Forest.Tidy forest

end

theorem Node.tidy_iff {n : Node} :
    n.Tidy ↔ isSegment n.name.toList = true ∧ TidyKeys n.attributes ∧ Forest.Tidy n.children := by
  cases n with
  | leaf name attributes datum =>
    exact ⟨fun h => ⟨h.1, h.2, trivial⟩, fun h => ⟨h.1, h.2.1⟩⟩
  | branch name attributes children => exact Iff.rfl

theorem tidyKeys_nil : TidyKeys [] := by simp [TidyKeys]

theorem keys_set (key text : String) (attributes : Attributes) :
    (attributes.set key text).map Prod.fst =
      if key ∈ attributes.map Prod.fst then attributes.map Prod.fst
      else attributes.map Prod.fst ++ [key] := by
  induction attributes with
  | nil => rfl
  | cons pair rest ih =>
    by_cases hk : pair.1 = key
    · simp [Attributes.set, hk]
    · have hk' : ¬ key = pair.1 := fun h => hk h.symm
      simp only [Attributes.set, hk, if_false, List.map_cons, ih, List.mem_cons, hk', false_or]
      split <;> rfl

theorem TidyKeys.set {key : String} {attributes : Attributes} (h : TidyKeys attributes)
    (hkey : key ≠ kindKey) (text : String) : TidyKeys (attributes.set key text) := by
  obtain ⟨hnodup, hkind⟩ := h
  rw [TidyKeys, keys_set]
  split
  · exact ⟨hnodup, hkind⟩
  · rename_i hnew
    refine ⟨?_, ?_⟩
    · rw [List.nodup_append]
      refine ⟨hnodup, by simp, fun a ha b hb hab => ?_⟩
      rw [List.mem_singleton.1 hb] at hab
      exact hnew (hab ▸ ha)
    · simp only [List.mem_append, List.mem_singleton, not_or]
      exact ⟨hkind, hkey.symm⟩

theorem TidyKeys.setAll {attributes pairs : Attributes} (h : TidyKeys attributes)
    (hpairs : ∀ pair ∈ pairs, pair.1 ≠ kindKey) : TidyKeys (attributes.setAll pairs) := by
  induction pairs generalizing attributes with
  | nil => exact h
  | cons pair rest ih =>
    exact ih (h.set (hpairs pair List.mem_cons_self) pair.2)
      fun p hp => hpairs p (List.mem_cons_of_mem pair hp)

/-! ## Nodes -/

section
variable {n : Node}

theorem Node.Tidy.mapAttributes (h : n.Tidy) {g : Attributes → Attributes}
    (hg : ∀ attributes, TidyKeys attributes → TidyKeys (g attributes)) :
    (n.mapAttributes g).Tidy := by
  cases n with
  | leaf name attributes datum => exact ⟨h.1, hg attributes h.2⟩
  | branch name attributes children => exact ⟨h.1, hg attributes h.2.1, h.2.2⟩

theorem Node.Tidy.assign (h : n.Tidy) (v : Value) : (n.assign v).Tidy := by
  cases n with
  | leaf name attributes datum => cases v <;> exact h
  | branch name attributes children => cases v <;> exact h

theorem Node.Tidy.mapChildren (h : n.Tidy) {g : Forest → Forest}
    (hg : Forest.Tidy n.children → Forest.Tidy (g n.children)) : (n.mapChildren g).Tidy := by
  cases n with
  | leaf name attributes datum => exact h
  | branch name attributes children => exact ⟨h.1, h.2.1, hg h.2.2⟩

theorem Node.tidy_fresh {name : String} (hs : isSegment name.toList = true) (v : Value) :
    (Node.fresh name v).Tidy := by
  cases v with
  | datum d => exact ⟨hs, tidyKeys_nil⟩
  | container names => exact ⟨hs, tidyKeys_nil, trivial⟩

theorem Node.tidy_chain (v : Value) {name : String} {rest : Path}
    (h : Path.WellFormed (name :: rest)) : (Node.chain v name rest).Tidy := by
  induction rest generalizing name with
  | nil => exact Node.tidy_fresh (h name List.mem_cons_self) v
  | cons next rest ih =>
    have hrest := ih fun s hs => h s (List.mem_cons_of_mem name hs)
    exact ⟨h name List.mem_cons_self, tidyKeys_nil, hrest, List.not_mem_nil, trivial⟩

theorem Node.name_chain (v : Value) (name : String) (rest : Path) :
    (Node.chain v name rest).name = name := by
  cases rest with
  | nil => exact Node.name_fresh name v
  | cons next rest => rfl

end

/-! ## Forests -/

namespace Forest
variable {name : String} {f : Forest}

theorem Tidy.nodup (h : Tidy f) : (f.map Node.name).Nodup := by
  induction f with
  | nil => exact List.nodup_nil
  | cons n f ih => exact List.nodup_cons.2 ⟨h.2.1, ih h.2.2⟩

theorem Tidy.of_mem (h : Tidy f) {n : Node} (hn : n ∈ f) : n.Tidy := by
  induction f with
  | nil => cases hn
  | cons m f ih =>
    rcases List.mem_cons.1 hn with rfl | hn
    · exact h.1
    · exact ih h.2.2 hn

/-- What a tidy forest has for a name has a name, attributes and children that are tidy. -/
theorem Tidy.of_child? (h : Tidy f) {n : Node} (hn : child? name f = some n) :
    isSegment n.name.toList = true ∧ TidyKeys n.attributes ∧ Tidy n.children :=
  Node.tidy_iff.1 (h.of_mem (mem_of_child? hn))

theorem Tidy.concat (h : Tidy f) {m : Node} (hm : m.Tidy) (hnew : m.name ∉ f.map Node.name) :
    Tidy (f ++ [m]) := by
  induction f with
  | nil => exact ⟨hm, List.not_mem_nil, trivial⟩
  | cons n f ih =>
    rw [List.map_cons, List.mem_cons, not_or] at hnew
    refine ⟨h.1, ?_, ih h.2.2 hnew.2⟩
    show n.name ∉ (f ++ [m]).map Node.name
    rw [List.map_append, List.mem_append, not_or]
    exact ⟨h.2.1, by simpa using fun hname => hnew.1 hname.symm⟩

/-- Every name at a level leads to the node that has it. -/
theorem Tidy.child?_name (h : Tidy f) {n : Node} (hn : n ∈ f) : child? n.name f = some n := by
  induction f with
  | nil => cases hn
  | cons m f ih =>
    rcases List.mem_cons.1 hn with rfl | hn
    · simp [child?]
    · have hne : m.name ≠ n.name := fun hname => h.2.1 (hname ▸ List.mem_map_of_mem hn)
      have hrest := ih h.2.2 hn
      simp only [child?] at hrest
      simp [child?, hne, hrest]

theorem Tidy.updateChild (h : Tidy f) {g : Node → Node} (hname : ∀ n, (g n).name = n.name)
    (hg : ∀ n ∈ f, n.name = name → n.Tidy → (g n).Tidy) : Tidy (updateChild name g f) := by
  induction f with
  | nil => trivial
  | cons n f ih =>
    rw [Forest.updateChild]
    split
    · rename_i hn
      exact ⟨hg n List.mem_cons_self hn h.1, by rw [hname]; exact h.2.1, h.2.2⟩
    · refine ⟨h.1, ?_, ih h.2.2 fun m hm => hg m (List.mem_cons_of_mem n hm)⟩
      rw [map_name_updateChild _ _ hname]
      exact h.2.1

theorem Tidy.update (h : Tidy f) {g : Node → Node} (hname : ∀ n, (g n).name = n.name)
    (hg : ∀ n : Node, n.Tidy → (g n).Tidy) (p : Path) : Tidy (update g p f) := by
  induction p generalizing f with
  | nil => exact h
  | cons name rest ih =>
    cases rest with
    | nil => exact h.updateChild hname fun n _ _ => hg n
    | cons next rest =>
      exact h.updateChild (fun n => Node.name_mapChildren _ n)
        fun n _ _ hn => hn.mapChildren fun hc => ih hc

theorem Tidy.plant (h : Tidy f) {v : Value} {above p : Path} (hp : p.WellFormed)
    (hnew : get? p f = none) {grown : Forest} (hgrown : plant v above p f = .ok grown) :
    Tidy grown := by
  induction p generalizing f above grown with
  | nil =>
    cases hgrown
    exact h
  | cons name rest ih =>
    cases rest with
    | nil =>
      cases hgrown
      refine h.concat (Node.tidy_fresh (hp name List.mem_cons_self) v) ?_
      rw [Node.name_fresh]
      exact child?_eq_none_iff.1 hnew
    | cons next rest =>
      simp only [Forest.plant] at hgrown
      split at hgrown
      · -- From here on down nothing is there, so a chain is made for the rest of the path.
        rename_i hchild
        cases hgrown
        refine h.concat (Node.tidy_chain v hp) ?_
        rw [Node.name_chain]
        exact child?_eq_none_iff.1 hchild
      · cases hgrown
      · rename_i hchild
        split at hgrown
        · cases hgrown
        · rename_i below hbelow
          cases hgrown
          rw [get?_cons name (List.cons_ne_nil next rest), hchild] at hnew
          have htidy := ih (h.of_child? hchild).2.2
            (fun s hs => hp s (List.mem_cons_of_mem name hs)) hnew hbelow
          exact h.updateChild (fun n => Node.name_mapChildren _ n)
            fun n _ _ hn => hn.mapChildren fun _ => htidy

/-- What a path leads to is tidy and has the path's last name. -/
theorem Tidy.get? (h : Tidy f) {p : Path} {n : Node} (hn : Forest.get? p f = some n) :
    n.Tidy ∧ p.getLast? = some n.name := by
  induction p generalizing f with
  | nil => cases hn
  | cons name rest ih =>
    cases rest with
    | nil => exact ⟨h.of_mem (mem_of_child? hn), by rw [name_of_child? hn]; rfl⟩
    | cons next rest =>
      rw [get?_cons name (List.cons_ne_nil next rest)] at hn
      obtain ⟨m, hm, hrest⟩ := Option.bind_eq_some_iff.1 hn
      obtain ⟨htidy, hlast⟩ := ih (h.of_child? hm).2.2 hrest
      exact ⟨htidy, by rw [List.getLast?_cons_cons]; exact hlast⟩

theorem Tidy.below (h : Tidy f) (p : Path) : Tidy (below p f) := by
  induction p generalizing f with
  | nil => exact h
  | cons name rest ih =>
    rw [Forest.below]
    split
    · trivial
    · rename_i n hn
      exact ih (h.of_child? hn).2.2

/-- Every path that leads to a node is well formed. -/
theorem Tidy.wellFormed (h : Tidy f) {p : Path} (hp : Forest.get? p f ≠ none) : p.WellFormed := by
  induction p generalizing f with
  | nil => exact absurd rfl hp
  | cons name rest ih =>
    obtain ⟨n, hn⟩ := Option.ne_none_iff_exists'.1 hp
    intro s hs
    have hfirst : ∀ {m : Node}, child? name f = some m → isSegment name.toList = true := by
      intro m hm
      rw [← name_of_child? hm]
      exact (h.of_child? hm).1
    cases rest with
    | nil =>
      rw [List.mem_singleton.1 hs]
      exact hfirst hn
    | cons next rest =>
      rw [get?_cons name (List.cons_ne_nil next rest)] at hn
      obtain ⟨m, hm, hrest⟩ := Option.bind_eq_some_iff.1 hn
      rcases List.mem_cons.1 hs with rfl | hs
      · exact hfirst hm
      · exact ih (h.of_child? hm).2.2 (by rw [hrest]; exact Option.some_ne_none n) s hs

mutual

theorem get?_of_mem_nodeListing {n : Node} (h : n.Tidy) {above : Path} {found : Path × Node}
    (hm : found ∈ n.listing above) :
    ∃ p, found.1 = above ++ n.name :: p ∧ Forest.get? (n.name :: p) [n] = some found.2 := by
  cases n with
  | leaf name attributes datum =>
    rw [Node.listing, List.mem_singleton] at hm
    subst hm
    exact ⟨[], rfl, by simp [Forest.get?, child?]⟩
  | branch name attributes children =>
    rw [Node.listing, List.mem_cons] at hm
    rcases hm with rfl | hm
    · exact ⟨[], rfl, by simp [Forest.get?, child?]⟩
    · obtain ⟨p, hne, hpath, hfound⟩ := get?_of_mem_forestListing h.2.2 hm
      refine ⟨p, by rw [hpath, List.append_assoc]; rfl, ?_⟩
      rw [get?_cons _ hne, child?_singleton, if_pos rfl]
      exact hfound

/-- What a listing lists is found at the path it is listed with. -/
theorem get?_of_mem_forestListing {f : Forest} (h : Tidy f) {above : Path} {found : Path × Node}
    (hm : found ∈ Forest.listing above f) :
    ∃ p, p ≠ [] ∧ found.1 = above ++ p ∧ Forest.get? p f = some found.2 := by
  cases f with
  | nil => cases hm
  | cons n f =>
    rw [Forest.listing, List.mem_append] at hm
    rcases hm with hm | hm
    · obtain ⟨p, hpath, hfound⟩ := get?_of_mem_nodeListing h.1 hm
      refine ⟨n.name :: p, List.cons_ne_nil _ _, hpath, ?_⟩
      cases p with
      | nil => simpa [Forest.get?, child?] using hfound
      | cons next rest => simpa [Forest.get?, child?] using hfound
    · obtain ⟨p, hne, hpath, hfound⟩ := get?_of_mem_forestListing h.2.2 hm
      refine ⟨p, hne, hpath, ?_⟩
      cases p with
      | nil => exact absurd rfl hne
      | cons name rest =>
        -- The names that follow are not that of the first node.
        have hchild : ∀ m, child? name f = some m → child? name (n :: f) = some m := by
          intro m hm
          have hother : n.name ≠ name := by
            rintro rfl
            exact h.2.1 (name_of_child? hm ▸ List.mem_map_of_mem (mem_of_child? hm))
          simpa [child?, hother] using hm
        cases rest with
        | nil => exact hchild _ hfound
        | cons next rest =>
          rw [get?_cons name (List.cons_ne_nil next rest)] at hfound ⊢
          obtain ⟨m, hm, hrest⟩ := Option.bind_eq_some_iff.1 hfound
          rw [hchild m hm]
          exact hrest

end

end Forest

/-! ## Registries -/

/-- A registry whose forests, kept or current, are tidy, in namespaces that are well formed. -/
structure Tidy (r : Registry) : Prop where
  forest : Forest.Tidy r.forest
  saved : ∀ forest ∈ r.saved, Forest.Tidy forest
  scopes : ∀ scope ∈ r.scopes, scope.WellFormed

theorem tidy_empty (name : String) : Tidy (.empty name) :=
  ⟨trivial, by simp [empty], by simp [empty]⟩

/-- A change keeps a registry tidy. -/
theorem Tidy.change {r r' : Registry} (h : Tidy r) (hc : Change r r') : Tidy r' := by
  obtain ⟨-, hscopes, hsaved⟩ := hc.keeps
  refine ⟨?_, hsaved ▸ h.saved, hscopes ▸ h.scopes⟩
  cases hc with
  | @place _ p _ hp _ hadd =>
    obtain ⟨-, ⟨n, -, -, rfl⟩ | ⟨hnew, grown, hgrown, rfl⟩⟩ := addAt_cases hadd
    · exact h.forest.update (Node.name_assign _) (fun n hn => hn.assign _) p
    · exact h.forest.plant hp hnew hgrown
  | setAttributes p hpairs =>
    exact h.forest.update (Node.name_mapAttributes _)
      (fun _ hn => hn.mapAttributes fun _ hkeys => hkeys.setAll hpairs) p

theorem Tidy.changes {r r' : Registry} (h : Tidy r) (hc : Changes r r') : Tidy r' := by
  induction hc with
  | refl => exact h
  | tail _ hlast ih => exact ih.change hlast

theorem wellFormed_of_validate {r : Registry} {scope : String} {p : Path}
    (h : r.validate scope = .ok p) : p.WellFormed := by
  simp only [validate] at h
  split at h
  · cases h
  · cases h
    simp [Path.WellFormed]
  · rename_i hp
    split at h <;> cases h
    exact Path.wellFormed_of_ofScope hp

/-- Every operation keeps a registry tidy, whatever it ends with. -/
theorem Tidy.perform {r : Registry} (h : Tidy r) (op : Operation) : Tidy (r.perform op).2 := by
  obtain hc | ⟨scope, p, -, hp, hr⟩ | ⟨-, hr⟩ | ⟨-, hr⟩ | ⟨forest, saved, -, hsaved, hr⟩ :=
    perform_cases r op
  · exact h.changes hc
  · rw [hr]
    refine ⟨h.forest, h.saved, fun q hq => ?_⟩
    rcases List.mem_cons.1 hq with rfl | hq
    · exact wellFormed_of_validate hp
    · exact h.scopes q hq
  · rw [hr]
    exact ⟨h.forest, h.saved, fun q hq => h.scopes q (List.mem_of_mem_tail hq)⟩
  · rw [hr]
    refine ⟨h.forest, fun forest hforest => ?_, h.scopes⟩
    rcases List.mem_cons.1 hforest with rfl | hforest
    · exact h.forest
    · exact h.saved forest hforest
  · rw [hr]
    have hall := h.saved
    rw [hsaved] at hall
    exact ⟨hall forest List.mem_cons_self, fun g hg => hall g (List.mem_cons_of_mem forest hg),
      h.scopes⟩

theorem tidy_ofMarkup {name text : String} {r : Registry} (h : ofMarkup name text = .ok r) :
    Tidy r := by
  unfold ofMarkup at h
  split at h
  · cases h
  · rename_i es _
    have hall := (tidy_empty name).changes
      (changes_loadAll (empty name) (empty name).namespaceText (unwrap name es))
    split at h
    · cases h
    · rename_i hload
      rw [hload] at hall
      cases h
      exact hall

theorem tidy_of_reachable {r : Registry} (h : Reachable r) : Tidy r := by
  induction h with
  | empty name => exact tidy_empty name
  | ofMarkup h => exact tidy_ofMarkup h
  | perform _ op ih => exact ih.perform op

end Lockstep.Registry
