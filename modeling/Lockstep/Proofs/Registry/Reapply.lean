import Lockstep.Proofs.Registry.RoundTrip

/- The markup of an entry, added again where the entry is.

   1. What is set as it was changes nothing: attributes that are there (`Attributes.setAll_self`), a node
      under the path that leads to it (`update_eq_self`), and so a value of an entry and its
      attributes (`addIn_again`, `setAttributesAt_again`).
   2. Loading an element that says a node which is there, and all that lies below it, comes down to these
      (`load_again`, `loadAll_again`): every element meets the entry that it says.
   3. So the markup of an entry leaves the registry as it is when it is added in the namespace above the
      entry, if what lies below can be written and is read as it was (`addMarkupIn_renderIn`). -/
namespace Lockstep

/-! ## What is set as it was -/

namespace Attributes
variable {attributes pairs : Attributes}

theorem set_of_mem (h : (attributes.map Prod.fst).Nodup) {pair : String × String}
    (hpair : pair ∈ attributes) : attributes.set pair.1 pair.2 = attributes := by
  induction attributes with
  | nil => cases hpair
  | cons first rest ih =>
    obtain ⟨hnew, hnodup⟩ := List.nodup_cons.1 h
    rcases List.mem_cons.1 hpair with rfl | hpair
    · rw [set, if_pos rfl]
    · have hne : first.1 ≠ pair.1 := fun hkey => hnew (hkey ▸ List.mem_map_of_mem hpair)
      rw [set, if_neg hne, ih hnodup hpair]

/-- Pairs that are there already change nothing when they are set. -/
theorem setAll_of_subset (h : (attributes.map Prod.fst).Nodup)
    (hpairs : ∀ pair ∈ pairs, pair ∈ attributes) : attributes.setAll pairs = attributes := by
  induction pairs with
  | nil => rfl
  | cons pair rest ih =>
    show (attributes.set pair.1 pair.2).setAll rest = attributes
    rw [set_of_mem h (hpairs pair List.mem_cons_self)]
    exact ih fun other hother => hpairs other (List.mem_cons_of_mem pair hother)

theorem setAll_self (h : (attributes.map Prod.fst).Nodup) : attributes.setAll attributes = attributes :=
  setAll_of_subset h fun _ hpair => hpair

end Attributes

namespace Registry
open Markup Forest

namespace Forest
variable {name : String} {f : Forest} {g : Node → Node} {n : Node}

theorem updateChild_eq_self (h : ∀ m, child? name f = some m → g m = m) :
    updateChild name g f = f := by
  induction f with
  | nil => rfl
  | cons m f ih =>
    rw [updateChild]
    by_cases hm : m.name = name
    · rw [if_pos hm, h m (by simp [child?, hm])]
    · rw [if_neg hm, ih fun k hk => h k (by simpa [child?, hm] using hk)]

/-- A change that leaves the node at the path as it is changes nothing. -/
theorem update_eq_self {p : Path} (h : get? p f = some n) (hg : g n = n) : update g p f = f := by
  induction p generalizing f with
  | nil => rfl
  | cons name rest ih =>
    cases rest with
    | nil =>
      refine updateChild_eq_self fun m hm => ?_
      obtain rfl : m = n := Option.some.inj (hm.symm.trans h)
      exact hg
    | cons next rest =>
      refine updateChild_eq_self fun m hm => ?_
      rw [get?_cons name (List.cons_ne_nil next rest), hm] at h
      cases m with
      | leaf name' attributes datum => rfl
      | branch name' attributes children =>
        exact congrArg (Node.branch name' attributes) (ih h)

end Forest

section
variable {r : Registry} {p : Path} {n : Node} {name scope : String} {v : Value}

/-- A value of its kind that changes nothing in an entry, under a name of the entry. -/
theorem addIn_again (hname : Path.ofName name scope = .ok p) (hn : r.forest.get? p = some n)
    (hv : childNames v = []) (hkind : n.kind = v.kind) (hassign : n.assign v = n) :
    r.addIn name scope v = .ok (p, r) := by
  have hforest := update_eq_self hn hassign
  simp only [addIn, hname, addAt, hv, checkChildren, hn, if_pos hkind, hforest]

/-- The attributes of an entry, set once more. -/
theorem setAttributesAt_again (hn : r.forest.get? p = some n) (ht : n.Tidy) :
    r.setAttributesAt p n.attributes = r := by
  have hself : n.mapAttributes (fun held => held.setAll n.attributes) = n := by
    have hall := Attributes.setAll_self (Node.tidy_iff.1 ht).2.1.1
    cases n with
    | leaf name attributes datum => exact congrArg (Node.leaf name · datum) hall
    | branch name attributes children => exact congrArg (Node.branch name · children) hall
  have hforest := update_eq_self hn hself
  exact congrArg (fun forest => { r with forest }) hforest

end

/-! ## Loading what is there -/

section
variable {r : Registry} {p : Path} {e : Element}

theorem load_leaf_again {name : String} {attributes : Attributes} {datum : Datum}
    (hn : r.forest.get? (p ++ [name]) = some (.leaf name attributes datum))
    (ht : (Node.leaf name attributes datum).Tidy) (hs : (Node.leaf name attributes datum).SaidBy e)
    (hp : p.WellFormed) (hread : datum.reread (separatorOf attributes) = datum) :
    r.load p.scopeText e = (.ok (p ++ [name]), r) := by
  obtain ⟨ename, eattributes, text, echildren, bodyStart, bodyEnd⟩ := e
  obtain ⟨rfl, rfl, rfl, rfl⟩ := hs
  have hvalue := datum.ofBody_chars_reread (separatorOf attributes)
  rw [hread] at hvalue
  have hadd := addIn_again (Path.ofName_segment hp ht.1) hn (v := .datum datum) rfl rfl rfl
  have hset := setAttributesAt_again hn ht
  simp only [Registry.load, elementKind_cons, keptAttributes_cons ht.2]
  -- The kind is that of a datum, which leaves the last of the three ways to load.
  split
  · rename_i heq
    cases heq
  · rename_i heq
    exact absurd (Except.ok.inj heq) datum.kind_ne_container
  · rename_i heq
    cases heq
    rw [hvalue, hadd]
    exact congrArg (Prod.mk _) hset

mutual

/-- Loading an element that says a node which is there leaves the registry as it is. -/
theorem load_again (n : Node) {r : Registry} {p : Path} {e : Element}
    (hn : r.forest.get? (p ++ [n.name]) = some n) (ht : n.Tidy) (hs : n.SaidBy e)
    (hp : p.WellFormed) (hread : n.reread = n) :
    r.load p.scopeText e = (.ok (p ++ [n.name]), r) := by
  cases n with
  | leaf name attributes datum => exact load_leaf_again hn ht hs hp (Node.leaf.inj hread).2.2
  | branch name attributes children =>
    obtain ⟨ename, eattributes, text, echildren, bodyStart, bodyEnd⟩ := e
    dsimp only [Node.SaidBy] at hs
    obtain ⟨rfl, rfl, hsaid⟩ := hs
    have hadd := addIn_again (Path.ofName_segment hp ht.1) hn (v := .container []) rfl rfl rfl
    have hbelow : below (p ++ [ename]) r.forest = children := below_of_get? (by simp) hn
    obtain ⟨ps, hload⟩ := loadAll_again children (p := p ++ [ename])
      (fun m hm => by rw [get?_concat, hbelow]; exact Forest.Tidy.child?_name ht.2.2 hm)
      ht.2.2 hsaid (hp.concat ht.1) (Node.branch.inj hread).2.2
    have hset := setAttributesAt_again hn ht
    simp only [Registry.load, elementKind_cons, keptAttributes_cons ht.2.1, hadd, hload]
    exact congrArg (Prod.mk _) hset

/-- So does loading elements that say nodes which are there, one by one. -/
theorem loadAll_again (f : Forest) {r : Registry} {p : Path} {es : List Element}
    (hf : ∀ n ∈ f, r.forest.get? (p ++ [n.name]) = some n) (ht : Forest.Tidy f)
    (hs : Forest.SaidBy f es) (hp : p.WellFormed) (hread : Forest.reread f = f) :
    ∃ ps, r.loadAll p.scopeText es = (.ok ps, r) := by
  cases f with
  | nil =>
    obtain rfl := hs
    exact ⟨[], rfl⟩
  | cons n f =>
    obtain ⟨e, rest, rfl, hsaid, hsaids⟩ := hs
    obtain ⟨hself, hrest⟩ := List.cons.inj hread
    have hload := load_again n (hf n List.mem_cons_self) ht.1 hsaid hp hself
    obtain ⟨ps, hloads⟩ := loadAll_again f (fun m hm => hf m (List.mem_cons_of_mem n hm)) ht.2.2
      hsaids hp hrest
    exact ⟨(p ++ [n.name]) :: ps, by simp only [loadAll, hload, hloads]⟩

end

end

/-! ## Namespaces -/

/-- A name is read in the path of a namespace, in whatever way the namespace is spelt. -/
theorem ofName_congr {scope scope' : String} (h : Path.ofScope scope = Path.ofScope scope')
    (name : String) : Path.ofName name scope = Path.ofName name scope' := by
  simp only [Path.ofName, Path.qualified, h]

theorem load_congr {scope scope' : String} (h : Path.ofScope scope = Path.ofScope scope')
    (r : Registry) (e : Element) : r.load scope e = r.load scope' e := by
  obtain ⟨name, attributes, text, children, bodyStart, bodyEnd⟩ := e
  simp only [load, addIn, ofName_congr h]

/-! ## Entries -/

/-- What lies at a path and below it is at most as high as elements may be nested, has keys that can be
    written, and data that are told apart by their markup. -/
structure LegibleBelow (r : Registry) (p : Path) : Prop where
  depth : ∀ {q e}, r.entry? (p ++ q) = some e → q.length < maxDepth
  keys : ∀ {q e}, r.entry? (p ++ q) = some e → NamedKeys e.attributes
  data : ∀ {q d attributes}, r.entry? (p ++ q) = some ⟨.datum d, attributes⟩ →
    d.Legible (separatorOf attributes)

section
variable {r : Registry} {p : Path} {n : Node}

/-- What is listed below a node is an entry below the path of the node. -/
theorem entry?_of_mem_listing_below (hn : r.forest.get? p = some n) (ht : n.Tidy) {above : Path}
    {found : Path × Node} (hfound : found ∈ Forest.listing above n.children) :
    ∃ q, found.1 = above ++ q ∧ r.entry? (p ++ q) = some found.2.entry := by
  obtain ⟨q, hne, hpath, hget⟩ := get?_of_mem_forestListing (Node.tidy_iff.1 ht).2.2 hfound
  refine ⟨q, hpath, entry?_of_get? ?_⟩
  rw [get?_append p hne, below_of_get? (ne_nil_of_get? hn) hn, hget]

theorem LegibleBelow.legible (h : r.LegibleBelow p) {q : Path}
    (hn : r.entry? (p ++ q) = some n.entry) : n.Legible := by
  cases n with
  | leaf name attributes datum => exact h.data hn
  | branch name attributes children => trivial

namespace LegibleBelow
variable (h : r.LegibleBelow p) (hn : r.forest.get? p = some n) (ht : n.Tidy)
include h hn ht

theorem height_le : n.height ≤ maxDepth := by
  refine @Node.height_le n [] maxDepth (by decide) fun found hfound => ?_
  obtain ⟨q, hpath, hentry⟩ := entry?_of_mem_listing_below hn ht hfound
  have hdepth := h.depth hentry
  rw [hpath]
  simp only [List.length_append, List.length_cons, List.length_nil]
  omega

theorem keyed : Forest.Keyed n.children := by
  intro found hfound
  obtain ⟨q, -, hentry⟩ := entry?_of_mem_listing_below hn ht hfound
  exact h.keys hentry

theorem reread : n.reread = n := by
  refine Node.reread_eq_self n ?_ fun found (hfound : found ∈ Forest.listing [] n.children) => ?_
  · refine Node.Legible.selfReading (h.legible (q := []) (entry?_of_get? ?_))
    rw [List.append_nil, hn]
  · obtain ⟨q, -, hentry⟩ := entry?_of_mem_listing_below hn ht hfound
    exact (h.legible hentry).selfReading

end LegibleBelow

/-- A registry that is legible all over is legible below every path. -/
theorem Legible.below (h : r.Legible) (p : Path) : r.LegibleBelow p where
  depth := by
    intro q e he
    have hdepth := h.depth he
    rw [List.length_append] at hdepth
    exact Nat.lt_of_le_of_lt (Nat.le_trans (Nat.le_add_left ..) hdepth) (by decide)
  keys := h.keys
  data := h.data

end

/-- The markup of an entry of a reachable registry can be added again in the namespace above the entry, if
    the entry and what lies below it are legible. It is added as that entry, and the registry is what it
    was: every value and attribute, the order of the children and that of the top-level entries. -/
theorem addMarkupIn_renderIn {r : Registry} (hr : Reachable r) {p : Path} {e : Entry}
    (he : r.entry? p = some e) (h : r.LegibleBelow p) :
    ∃ text, (∀ scope, r.renderIn p.text scope = .ok text) ∧
      ∀ scope, Path.ofScope scope = .ok p.dropLast → r.addMarkupIn text scope = (.ok p, r) := by
  have htidy := (tidy_of_reachable hr).forest
  obtain ⟨n, hn, -⟩ := Option.map_eq_some_iff.1 he
  obtain ⟨ht, hlast⟩ := htidy.get? hn
  have hcontains : (Table.of r.forest).contains p = true := Table.contains_of_get? hn
  have hkeys : NamedKeys n.attributes := by
    refine h.keys (q := []) (entry?_of_get? ?_)
    rw [List.append_nil, hn]
  obtain ⟨e, hparse, hsaid⟩ :=
    exists_parseFirst_chars ht hkeys (h.keyed hn ht) (h.height_le hn ht)
  refine ⟨String.ofList n.chars, fun scope => ?_, fun scope hscope => ?_⟩
  · have hresolve := (Table.closed_of htidy).resolve hcontains scope
    rw [Table.resolve_of] at hresolve
    simp only [renderIn, nodeIn, hresolve, hn]
    rfl
  · -- The last segment of the path is the name of the node, and the others are the namespace.
    have hpath : p = p.dropLast ++ [n.name] := by
      rw [List.getLast?_eq_some_iff] at hlast
      obtain ⟨front, rfl⟩ := hlast
      rw [List.dropLast_concat]
    have hwf := Path.wellFormed_of_ofScope hscope
    have hload := load_again n (p := p.dropLast) (hpath ▸ hn) ht hsaid hwf (h.reread hn ht)
    have hspelt := hscope.trans (Path.ofScope_scopeText hwf).symm
    simp only [addMarkupIn, hparse]
    rw [load_congr hspelt, hload, ← hpath]

/-- Containers in one another, data of several kinds, one with a separator of its own, and an attribute
    that has to be escaped; a namespace was pushed and a state saved. -/
def settled : Registry := (empty "index").after
  [.add "/zone/limits/high" (.datum (.floats [⟨0x3f800000⟩, ⟨0x7f800000⟩])),
    .setAttribute "/zone/limits/high" "separator" ";",
    .add "/zone/limits/none" (.datum (.texts [""])),
    .setAttribute "/zone/limits" "unit" "\"m\" & <s>",
    .add "/note" (.datum (.text " a ")),
    .add "/zone/counts" (.datum (.ints [-7, 0])),
    .pushNamespace "/zone", .saveState]

theorem addMarkupIn_renderIn_settled :
    settled.entry? ["zone", "limits"] =
      some ⟨.container ["high", "none"], [("unit", "\"m\" & <s>")]⟩ ∧
    (∃ text, settled.renderIn "/zone/limits" "/" = .ok text ∧
      settled.addMarkupIn text "/zone/" = (.ok ["zone", "limits"], settled)) ∧
    ∃ text, settled.renderIn "/zone" "/zone/" = .ok text ∧
      settled.addMarkupIn text "/" = (.ok ["zone"], settled) := by
  have hlegible : settled.Legible := legible_of_listing (by decide +kernel)
  have hreachable : Reachable settled := (Reachable.empty "index").after _
  have hlimits : settled.entry? ["zone", "limits"] =
      some ⟨.container ["high", "none"], [("unit", "\"m\" & <s>")]⟩ := by decide +kernel
  have hzone : settled.entry? ["zone"] = some ⟨.container ["limits", "counts"], []⟩ := by
    decide +kernel
  refine ⟨hlimits, ?_, ?_⟩
  · obtain ⟨text, hrender, hadd⟩ :=
      addMarkupIn_renderIn hreachable hlimits (hlegible.below ["zone", "limits"])
    exact ⟨text, hrender "/", hadd "/zone/" (by decide +kernel)⟩
  · obtain ⟨text, hrender, hadd⟩ :=
      addMarkupIn_renderIn hreachable hzone (hlegible.below ["zone"])
    exact ⟨text, hrender "/zone/", hadd "/" (by decide +kernel)⟩

end Registry
end Lockstep
