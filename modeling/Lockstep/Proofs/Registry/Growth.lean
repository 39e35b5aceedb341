import Lockstep.Proofs.Registry.Change
import Lockstep.Proofs.Registry.Forest

/- Registries grow.

   1. An entry `Precedes` what may become of it: an entry of the same kind, with its children and its keys
      in front of those that came later.
   2. `Forest.Grows` says that no entry is lost and that each precedes the one found at its path later.
      So grows a forest in which one node was changed and a forest that was planted in (`grows_update`,
      `grows_of_plant`), hence one that any change was made to (`Change.forest_grows`).
   3. A name goes on to mean what it meant in a namespace, or else an entry that has come nearer
      (`exists_resolve`).
   4. So no operation takes anything away, whatever it ends with, but for the one that restores a
      saved forest (`grows_perform`). -/
namespace Lockstep

namespace Attributes

/-- Setting keys leaves those before them where they are. -/
theorem keys_prefix_keys_setAll (attributes pairs : Attributes) :
    attributes.map Prod.fst <+: (attributes.setAll pairs).map Prod.fst := by
  induction pairs generalizing attributes with
  | nil => exact List.prefix_rfl
  | cons pair rest ih => exact (keys_prefix_keys_set pair.1 pair.2 attributes).trans (ih _)

end Attributes

namespace Registry
open Relation

/-! ## Entries -/

/-- What may become of an entry: its kind stays, and its children and its keys stay in their places. -/
structure Entry.Precedes (e later : Entry) : Prop where
  kind : later.value.kind = e.value.kind
  children : childNames e.value <+: childNames later.value
  keys : e.attributes.map Prod.fst <+: later.attributes.map Prod.fst

theorem Entry.Precedes.refl (e : Entry) : e.Precedes e :=
  ⟨rfl, List.prefix_rfl, List.prefix_rfl⟩

theorem Entry.Precedes.trans {e₁ e₂ e₃ : Entry} (h : e₁.Precedes e₂) (h' : e₂.Precedes e₃) :
    e₁.Precedes e₃ :=
  ⟨h'.kind.trans h.kind, h.children.trans h'.children, h.keys.trans h'.keys⟩

theorem Node.precedes_assign {n : Node} {v : Value} (h : n.kind = v.kind) :
    n.entry.Precedes (n.assign v).entry := by
  cases n with
  | leaf name attributes datum =>
    cases v with
    | datum d => exact ⟨h.symm, List.prefix_rfl, List.prefix_rfl⟩
    | container names => exact .refl _
  | branch name attributes children => cases v <;> exact .refl _

theorem Node.precedes_mapAttributes (n : Node) (pairs : Attributes) :
    n.entry.Precedes (n.mapAttributes fun held => held.setAll pairs).entry := by
  cases n <;> exact ⟨rfl, List.prefix_rfl, Attributes.keys_prefix_keys_setAll _ _⟩

/-! ## Forests -/

namespace Forest
variable {f g : Forest}

/-- Every entry is still there, and precedes the one at its path; so do the names at the top. -/
structure Grows (f g : Forest) : Prop where
  entries : ∀ {p e}, entryAt p f = some e → ∃ later, entryAt p g = some later ∧ e.Precedes later
  names : f.map Node.name <+: g.map Node.name

theorem Grows.refl (f : Forest) : Grows f f :=
  ⟨fun {_ e} h => ⟨e, h, .refl e⟩, List.prefix_rfl⟩

theorem Grows.trans {h : Forest} (hfg : Grows f g) (hgh : Grows g h) : Grows f h := by
  refine ⟨fun he => ?_, hfg.names.trans hgh.names⟩
  obtain ⟨e₁, he₁, hle⟩ := hfg.entries he
  obtain ⟨e₂, he₂, hle'⟩ := hgh.entries he₁
  exact ⟨e₂, he₂, hle.trans hle'⟩

theorem entryAt_cons (name : String) {rest : Path} (hne : rest ≠ []) (f : Forest) :
    entryAt (name :: rest) f = (child? name f).bind fun n => entryAt rest n.children := by
  rw [entryAt, get?_cons name hne, Option.map_bind]
  rfl

/-- Nodes behind the others hide none of them. -/
theorem grows_append (f more : Forest) : Grows f (f ++ more) := by
  refine ⟨fun {p e} he => ⟨e, ?_, .refl e⟩, by rw [List.map_append]; exact List.prefix_append ..⟩
  cases p with
  | nil => cases he
  | cons name rest =>
    have hchild : ∀ n, child? name f = some n → child? name (f ++ more) = some n := by
      intro n hn
      rw [child?_append, hn, Option.some_or]
    cases rest with
    | nil =>
      obtain ⟨n, hn, rfl⟩ := Option.map_eq_some_iff.1 he
      rw [entryAt, get?, hchild n hn, Option.map_some]
    | cons next rest =>
      rw [entryAt_cons name (List.cons_ne_nil next rest)] at he ⊢
      obtain ⟨n, hn, hrest⟩ := Option.bind_eq_some_iff.1 he
      rw [hchild n hn, Option.bind_some, hrest]

/-- A changed node that keeps its name and its children is found where it was. -/
theorem grows_update {c : Node → Node} (hname : ∀ n, (c n).name = n.name)
    (hchildren : ∀ n, (c n).children = n.children) {p : Path}
    (hentry : ∀ n, get? p f = some n → n.entry.Precedes (c n).entry) : Grows f (update c p f) := by
  have hnames : (update c p f).map Node.name = f.map Node.name := map_name_update hname p f
  refine ⟨fun {q e} he => ?_, hnames ▸ List.prefix_rfl⟩
  rw [entryAt_update hname hchildren]
  by_cases hq : q = p
  · subst hq
    obtain ⟨n, hn, rfl⟩ := Option.map_eq_some_iff.1 he
    exact ⟨(c n).entry, by rw [if_pos rfl, hn, Option.map_some], hentry n hn⟩
  · exact ⟨e, by rw [if_neg hq, he], .refl e⟩

/-- A forest grows with what lies below one of its branches. -/
theorem Grows.below_branch {name : String} {attributes : Attributes} {children grown : Forest}
    (h : Grows children grown) (hchild : child? name f = some (.branch name attributes children)) :
    Grows f (updateChild name (Node.mapChildren fun _ => grown) f) := by
  have hkeeps : ∀ n : Node, (n.mapChildren fun _ => grown).name = n.name := Node.name_mapChildren _
  have hother : ∀ other, other ≠ name →
      child? other (updateChild name (Node.mapChildren fun _ => grown) f) = child? other f := by
    intro other hne
    rw [child?_updateChild hkeeps, if_neg hne]
  have hself : child? name (updateChild name (Node.mapChildren fun _ => grown) f) =
      some (.branch name attributes grown) := by
    rw [child?_updateChild hkeeps, if_pos rfl, hchild]
    rfl
  have hnames := map_name_updateChild name f hkeeps
  refine ⟨fun {p e} he => ?_, hnames ▸ List.prefix_rfl⟩
  cases p with
  | nil => cases he
  | cons first rest =>
    by_cases hfirst : first = name
    · subst hfirst
      cases rest with
      | nil =>
        -- The branch itself lists what lies below it.
        rw [entryAt, get?, hchild] at he
        rw [entryAt, get?, hself]
        cases he
        exact ⟨_, rfl, rfl, h.names, List.prefix_rfl⟩
      | cons next rest =>
        rw [entryAt_cons _ (List.cons_ne_nil next rest), hchild] at he
        rw [entryAt_cons _ (List.cons_ne_nil next rest), hself]
        exact h.entries he
    · refine ⟨e, ?_, .refl e⟩
      rw [← he]
      cases rest with
      | nil => rw [entryAt, entryAt, get?, get?, hother first hfirst]
      | cons next rest =>
        rw [entryAt_cons _ (List.cons_ne_nil next rest), entryAt_cons _ (List.cons_ne_nil next rest),
          hother first hfirst]

/-- Planting takes nothing away. -/
theorem grows_of_plant {v : Value} {above p : Path} {grown : Forest}
    (h : plant v above p f = .ok grown) : Grows f grown := by
  induction p generalizing f above grown with
  | nil =>
    cases h
    exact .refl f
  | cons name rest ih =>
    cases rest with
    | nil =>
      cases h
      exact grows_append f _
    | cons next rest =>
      simp only [plant] at h
      split at h
      · cases h
        exact grows_append f _
      · cases h
      · rename_i found attributes children hchild
        obtain rfl : found = name := name_of_child? hchild
        split at h
        · cases h
        · rename_i below hbelow
          cases h
          exact (ih hbelow).below_branch hchild

end Forest

/-- A change takes nothing away. -/
theorem Change.forest_grows {r later : Registry} (h : Change r later) :
    Forest.Grows r.forest later.forest := by
  cases h with
  | @place _ _ v _ _ hadd =>
    obtain ⟨-, ⟨n, hn, hkind, rfl⟩ | ⟨-, grown, hgrown, rfl⟩⟩ := addAt_cases hadd
    · refine Forest.grows_update (Node.name_assign v) (Node.children_assign v) fun m hm => ?_
      rw [hn] at hm
      cases hm
      exact Node.precedes_assign hkind
    · exact Forest.grows_of_plant hgrown
  | @setAttributes p pairs _ =>
    exact Forest.grows_update (Node.name_mapAttributes _) (Node.children_mapAttributes _)
      fun n _ => n.precedes_mapAttributes pairs

theorem Changes.forest_grows {r later : Registry} (h : Changes r later) :
    Forest.Grows r.forest later.forest := by
  induction h with
  | refl => exact .refl _
  | tail _ hlast ih => exact ih.trans hlast.forest_grows

/-! ## Names that mean an entry -/

/-- The segments of a relative name. -/
def relativePath (name : String) : Path :=
  ((Text.stripEndBy (· = '/') name.toList).splitOn '/').map String.ofList

/-- The same relative name found as near to a namespace as before, or nearer. -/
def Nearer (scope relative p found : Path) : Prop :=
  ∃ outer inner, outer <+: inner ∧ inner <+: scope ∧ p = outer ++ relative ∧ found = inner ++ relative

/-- Nothing that is seen of one registry is lost in another. Each entry is still there and precedes the
    one at its path, the names at the top are still in their places, and a name that means an entry goes
    on to mean one: the same, or one that has come nearer to the namespace it is looked up in. -/
structure Grows (r later : Registry) : Prop where
  entries : ∀ {p e}, r.entry? p = some e → ∃ e', later.entry? p = some e' ∧ e.Precedes e'
  roots : r.roots <+: later.roots
  resolve : ∀ {name scope p}, r.resolve name scope = .ok p →
    ∃ found, later.resolve name scope = .ok found ∧
      (found = p ∨ ∃ space, Path.ofScope scope = .ok space ∧
        Nearer space (relativePath name) p found)

section
variable {r later : Registry}

/-- A search finds a path in one of the scopes, and later in that one or in one before it. -/
theorem exists_search (h : ∀ p, r.contains p = true → later.contains p = true) {relative p : Path}
    {scope : List String} (hp : r.search relative scope = some p) :
    ∃ outer inner, outer <:+ inner ∧ inner <:+ scope ∧ p = outer.reverse ++ relative ∧
      later.search relative scope = some (inner.reverse ++ relative) := by
  induction scope with
  | nil =>
    rw [search] at hp ⊢
    split at hp
    · rename_i hcontains
      cases hp
      exact ⟨[], [], List.suffix_rfl, List.suffix_rfl, rfl, if_pos (h _ hcontains)⟩
    · cases hp
  | cons segment outer ih =>
    simp only [search] at hp ⊢
    split at hp
    · rename_i hcontains
      cases hp
      exact ⟨_, _, List.suffix_rfl, List.suffix_rfl, rfl, if_pos (h _ hcontains)⟩
    · obtain ⟨far, near, hfar, hnear, rfl, hfound⟩ := ih hp
      have hscope : near <:+ segment :: outer := hnear.trans (List.suffix_cons ..)
      by_cases hcontains : later.contains ((segment :: outer).reverse ++ relative) = true
      · exact ⟨far, _, hfar.trans hscope, List.suffix_rfl, rfl, if_pos hcontains⟩
      · exact ⟨far, near, hfar, hscope, rfl, by rw [if_neg hcontains, hfound]⟩

/-- A name that means an entry goes on to mean one, the same or a nearer one. -/
theorem exists_resolve (h : ∀ p, r.contains p = true → later.contains p = true) {name scope : String}
    {p : Path} (hp : r.resolve name scope = .ok p) :
    ∃ found, later.resolve name scope = .ok found ∧
      (found = p ∨ ∃ space, Path.ofScope scope = .ok space ∧
        Nearer space (relativePath name) p found) := by
  simp only [resolve] at hp ⊢
  split at hp
  · -- An absolute name means one path at all times.
    rename_i hhead
    rw [if_pos hhead]
    split at hp
    · cases hp
    · rename_i q hq
      split at hp
      · rename_i hfound
        cases hp
        exact ⟨_, if_pos (h _ hfound), .inl rfl⟩
      · cases hp
  · rename_i hhead
    rw [if_neg hhead]
    split at hp
    · cases hp
    · rename_i space hspace
      split at hp
      · rename_i q hq
        cases hp
        obtain ⟨outer, inner, houter, hinner, rfl, hfound⟩ := exists_search h hq
        refine ⟨inner.reverse ++ relativePath name, ?_, .inr ⟨space, hspace, outer.reverse,
          inner.reverse, ?_, ?_, rfl, rfl⟩⟩
        · simp only [hfound, relativePath]
        · exact List.reverse_prefix.2 houter
        · rw [← List.reverse_suffix, List.reverse_reverse]
          exact hinner
      · cases hp

/-- What a forest has at a path, it has when it has grown. -/
theorem contains_of_grows (h : Forest.Grows r.forest later.forest) (p : Path)
    (hp : r.contains p = true) : later.contains p = true := by
  obtain ⟨n, hn⟩ := Option.isSome_iff_exists.1 hp
  obtain ⟨e, he, -⟩ := h.entries (p := p) (by rw [Forest.entryAt, hn]; rfl)
  obtain ⟨m, hm, -⟩ := Option.map_eq_some_iff.1 he
  exact Option.isSome_iff_exists.2 ⟨m, hm⟩

/-- When the forest of a registry grows, so does what can be seen of it. -/
theorem grows_of_forest (h : Forest.Grows r.forest later.forest) : r.Grows later :=
  ⟨h.entries, h.names, exists_resolve (contains_of_grows h)⟩

end

/-! ## Operations -/

theorem forest_grows_perform (r : Registry) {op : Operation} (hop : op ≠ .restoreState) :
    Forest.Grows r.forest (r.perform op).2.forest := by
  obtain hc | ⟨scope, p, -, -, hr⟩ | ⟨-, hr⟩ | ⟨-, hr⟩ | ⟨forest, saved, hrestore, -⟩ :=
    perform_cases r op
  · exact hc.forest_grows
  · rw [hr]
    exact .refl _
  · rw [hr]
    exact .refl _
  · rw [hr]
    exact .refl _
  · exact absurd hrestore hop

theorem forest_grows_after (r : Registry) {ops : List Operation}
    (hops : ∀ op ∈ ops, op ≠ .restoreState) : Forest.Grows r.forest (r.after ops).forest := by
  induction ops generalizing r with
  | nil => exact .refl _
  | cons op ops ih =>
    exact (forest_grows_perform r (hops op List.mem_cons_self)).trans
      (ih _ fun o ho => hops o (List.mem_cons_of_mem op ho))

/-- Nothing is lost by an operation, whatever it ends with, nor by operations one after the other, unless
    one of them restores a saved forest. -/
theorem grows_perform (r : Registry) :
    (∀ op, op ≠ .restoreState → r.Grows (r.perform op).2) ∧
      ∀ ops, (∀ op ∈ ops, op ≠ Operation.restoreState) → r.Grows (r.after ops) :=
  ⟨fun _ hop => grows_of_forest (forest_grows_perform r hop),
    fun _ hops => grows_of_forest (forest_grows_after r hops)⟩

/-- Two entries, one of them with an attribute, below a container and at the top. -/
def planted : Registry := (Registry.empty "index").after
  [.add "/a/b" (.datum (.int 1)), .setAttribute "/a/b" "unit" "m", .add "/x" (.datum (.int 2)),
    .pushNamespace "a"]

/-- Markup that brings an entry nearer and stops at one of another kind. -/
def intrusion : Operation := .addAllMarkup "<x/><b unit='s' scale='2'>7</b><b>text</b><c/>"

theorem grows_intrusion :
    (planted.perform intrusion).1 = some (.mismatch ⟨"/a/b", .int, .text⟩) ∧
      (planted.resolve "x" "/a").toOption = some ["x"] ∧
      ((planted.perform intrusion).2.resolve "x" "/a").toOption = some ["a", "x"] ∧
      planted.Grows (planted.perform intrusion).2 ∧
      planted.Grows (planted.after [intrusion, .saveState, .popNamespace]) :=
  ⟨by decide +kernel, by decide +kernel, by decide +kernel,
    (grows_perform planted).1 intrusion nofun, (grows_perform planted).2 _ (by simp [intrusion])⟩

end Registry
end Lockstep
