import Lockstep.Proofs.Registry.Markup
import Lockstep.Proofs.Value.Text

/- What loading makes of elements that say entries.

   1. The body that a datum was written as is read as some datum of its kind, `Datum.reread`, which is
      the datum itself if it is legible. `Forest.reread` does so at every leaf of a forest.
   2. A new node under an open path is added without its attributes and its children, which are set
      later (`addIn_new`, `setAttributesAt_new`).
   3. So loading an element that says a node grafts that node, its data reread, and loading elements that
      say a forest grafts the forest (`load_of_saidBy`, `loadAll_of_saidBy`), whatever the data are. -/
namespace Lockstep

/-! ## Data read again -/

namespace Datum

theorem kind_ne_container (d : Datum) : d.kind ≠ .container := by
  cases d <;> exact nofun

/-- The datum that the body of a datum is read as. -/
def reread (sep : Char) (d : Datum) : Datum :=
  match Value.ofBody d.kind (String.ofList (d.chars sep)) sep with
  | .datum d' => d'
  | .container _ => d

/-- Every body that was written for a datum is read as one. -/
theorem ofBody_chars_reread (d : Datum) (sep : Char) :
    Value.ofBody d.kind (String.ofList (d.chars sep)) sep = .datum (d.reread sep) := by
  have hkind := Value.kind_ofBody d.kind (String.ofList (d.chars sep)) sep
  unfold reread
  cases hread : Value.ofBody d.kind (String.ofList (d.chars sep)) sep with
  | datum d' => rfl
  | container names =>
    rw [hread] at hkind
    exact absurd hkind.symm d.kind_ne_container

@[simp] theorem kind_reread (d : Datum) (sep : Char) : (d.reread sep).kind = d.kind := by
  have hkind := Value.kind_ofBody d.kind (String.ofList (d.chars sep)) sep
  rw [ofBody_chars_reread] at hkind
  exact hkind

theorem reread_eq_self {d : Datum} {sep : Char} (h : d.Legible sep) : d.reread sep = d :=
  Value.datum.inj ((d.ofBody_chars_reread sep).symm.trans (Value.ofBody_chars h))

end Datum

/-! ## Attributes -/

namespace Attributes

theorem set_of_not_mem {key : String} {attributes : Attributes}
    (h : key ∉ attributes.map Prod.fst) (text : String) :
    attributes.set key text = attributes ++ [(key, text)] := by
  induction attributes with
  | nil => rfl
  | cons pair rest ih =>
    rw [List.map_cons, List.mem_cons, not_or] at h
    rw [set, if_neg fun heq => h.1 heq.symm, ih h.2]
    rfl

/-- Keys that are new, and different from each other, are set at the end. -/
theorem setAll_of_nodup {held pairs : Attributes} (h : ((held ++ pairs).map Prod.fst).Nodup) :
    held.setAll pairs = held ++ pairs := by
  induction pairs generalizing held with
  | nil => exact (List.append_nil held).symm
  | cons pair rest ih =>
    have hnew : pair.1 ∉ held.map Prod.fst := by
      rw [List.map_append, List.nodup_append] at h
      exact fun hmem => h.2.2 _ hmem _ List.mem_cons_self rfl
    have hsplit : held ++ pair :: rest = (held ++ [pair]) ++ rest := by simp
    rw [hsplit] at h ⊢
    rw [← ih h]
    show (held.set pair.1 pair.2).setAll rest = _
    rw [set_of_not_mem hnew]

end Attributes

namespace Registry
open Markup Forest

/-! ## Nodes read again -/

mutual

/-- A node with every datum as it is read again. -/
def Node.reread : Node → Node
  | .leaf name attributes datum => .leaf name attributes (datum.reread (separatorOf attributes))
  | .branch name attributes children => .branch name attributes (Forest.reread children)

/-- A forest with every datum as it is read again. -/
def Forest.reread : List Node → List Node
  | [] => []
  | n :: forest => n.reread :: Forest.reread forest

end

@[simp] theorem Node.name_reread (n : Node) : n.reread.name = n.name := by
  cases n <;> rw [Node.reread] <;> rfl

/-! ## Elements of entries -/

theorem keptAttributes_cons {attributes : Attributes} (h : TidyKeys attributes) (marker : String) :
    keptAttributes ((kindKey, marker) :: attributes) = attributes := by
  have hfirst : decide (kindKey ≠ kindKey) = false := decide_eq_false fun h => h rfl
  rw [keptAttributes, List.filter_cons_of_neg (by rw [hfirst]; exact Bool.false_ne_true)]
  refine List.filter_eq_self.2 fun pair hpair => decide_eq_true ?_
  rintro hkey
  exact h.2 (hkey ▸ List.mem_map_of_mem hpair)

theorem ofMarker?_marker (kind : Kind) : Kind.ofMarker? kind.marker = some kind := by
  cases kind <;> decide

theorem elementKind_cons (kind : Kind) (attributes : Attributes) (text : String)
    (children : List Element) :
    elementKind ((kindKey, kind.marker) :: attributes) text children = .ok kind := by
  have hmarker : Attributes.get? kindKey ((kindKey, kind.marker) :: attributes) = some kind.marker :=
    if_pos rfl
  simp only [elementKind, hmarker, ofMarker?_marker]

/-! ## Adding nodes -/

section
variable {r : Registry} {p : Path} {name : String}

/-- A value without children under a new name. -/
theorem addIn_new (hp : p.WellFormed) (hs : isSegment name.toList = true) (ho : IsOpen p r.forest)
    (hnew : child? name (below p r.forest) = none) {v : Value} (hv : childNames v = []) :
    r.addIn name p.scopeText v =
      .ok (p ++ [name], { r with forest := graft (· ++ [Node.fresh name v]) p r.forest }) := by
  have habsent : r.forest.get? (p ++ [name]) = none := by rw [get?_concat, hnew]
  have hplant := plant_concat ho hnew v []
  simp only [addIn, Path.ofName_segment hp hs, addAt, hv, checkChildren, habsent, hplant]

theorem setAttributesAt_new {m : Node} (pairs : Attributes)
    (hnew : child? m.name (below p r.forest) = none) :
    ({ r with forest := graft (· ++ [m]) p r.forest } : Registry).setAttributesAt (p ++ [m.name]) pairs =
      { r with forest := graft (· ++ [m.mapAttributes (Attributes.setAll · pairs)]) p r.forest } := by
  have hgraft := graft_concat_new hnew (Node.mapAttributes (Attributes.setAll · pairs))
  rw [← update_concat] at hgraft
  exact congrArg (fun forest => { r with forest }) hgraft

end

/-! ## Loading -/

section
variable {r : Registry} {p : Path} {name : String} {attributes : Attributes} {e : Element}

/-- Loading an element that says a leaf grafts the leaf, its datum reread. -/
theorem load_leaf {datum : Datum} (ht : (Node.leaf name attributes datum).Tidy)
    (hs : (Node.leaf name attributes datum).SaidBy e) (hp : p.WellFormed) (ho : IsOpen p r.forest)
    (hnew : child? name (below p r.forest) = none) :
    r.load p.scopeText e = (.ok (p ++ [name]),
      { r with forest := graft (· ++ [(Node.leaf name attributes datum).reread]) p r.forest }) := by
  obtain ⟨ename, eattributes, text, echildren, bodyStart, bodyEnd⟩ := e
  obtain ⟨hname, hkeys⟩ := ht
  obtain ⟨rfl, rfl, rfl, rfl⟩ := hs
  have hkept := keptAttributes_cons hkeys datum.kind.marker
  have hvalue := datum.ofBody_chars_reread (separatorOf attributes)
  have hadd := addIn_new hp hname ho hnew (v := .datum (datum.reread (separatorOf attributes))) rfl
  have hset := setAttributesAt_new
    (m := .leaf ename [] (datum.reread (separatorOf attributes))) attributes hnew
  have hall : Attributes.setAll [] attributes = attributes := Attributes.setAll_of_nodup hkeys.1
  simp only [Registry.load, elementKind_cons, hkept]
  -- The kind is that of a datum, which leaves the last of the three ways to load.
  split
  · rename_i heq
    cases heq
  · rename_i heq
    exact absurd (Except.ok.inj heq) datum.kind_ne_container
  · rename_i heq
    cases heq
    rw [hvalue, hadd]
    simp only [Node.mapAttributes, hall] at hset
    exact congrArg (Prod.mk _) hset

/-- Loading an element that says a branch grafts the branch, if loading the elements in it grafts what is
    below the branch under a new container. -/
theorem load_branch {children grown : Forest} (ht : (Node.branch name attributes children).Tidy)
    (hs : (Node.branch name attributes children).SaidBy e) (hp : p.WellFormed)
    (ho : IsOpen p r.forest) (hnew : child? name (below p r.forest) = none)
    (hload : ∃ ps, Registry.loadAll
        { r with forest := graft (· ++ [.branch name [] []]) p r.forest }
        (p ++ [name]).scopeText e.children =
      (.ok ps, { r with
        forest := graft (· ++ grown) (p ++ [name])
          (graft (· ++ [.branch name [] []]) p r.forest) })) :
    r.load p.scopeText e = (.ok (p ++ [name]),
      { r with forest := graft (· ++ [.branch name attributes grown]) p r.forest }) := by
  obtain ⟨ename, eattributes, text, echildren, bodyStart, bodyEnd⟩ := e
  obtain ⟨hname, hkeys, -⟩ := ht
  dsimp only [Node.SaidBy] at hs
  obtain ⟨rfl, rfl, -⟩ := hs
  obtain ⟨ps, hload⟩ := hload
  have hkept := keptAttributes_cons hkeys Kind.container.marker
  have hadd := addIn_new hp hname ho hnew (v := .container []) rfl
  -- The children are grafted below the new container, then the attributes are set on it.
  have hgraft : graft (· ++ grown) (p ++ [ename]) (graft (· ++ [.branch ename [] []]) p r.forest) =
      graft (· ++ [.branch ename [] grown]) p r.forest := by
    rw [graft_append]
    exact graft_concat_new (m := .branch ename [] []) hnew (Node.mapChildren (· ++ grown))
  have hset := setAttributesAt_new (m := .branch ename [] grown) attributes hnew
  have hall : Attributes.setAll [] attributes = attributes := Attributes.setAll_of_nodup hkeys.1
  simp only [Node.mapAttributes, hall] at hset
  rw [hgraft] at hload
  simp only [Registry.load, elementKind_cons, hkept, hadd, Node.fresh, hload]
  exact congrArg (Prod.mk _) hset

end

mutual

/-- Loading an element that says a node grafts the node, its data reread. -/
theorem load_of_saidBy (n : Node) {r : Registry} {p : Path} {e : Element} (ht : n.Tidy)
    (hs : n.SaidBy e) (hp : p.WellFormed) (ho : IsOpen p r.forest)
    (hnew : child? n.name (below p r.forest) = none) :
    r.load p.scopeText e =
      (.ok (p ++ [n.name]), { r with forest := graft (· ++ [n.reread]) p r.forest }) := by
  cases n with
  | leaf name attributes datum => exact load_leaf ht hs hp ho hnew
  | branch name attributes children =>
    have hnew : child? name (below p r.forest) = none := hnew
    obtain ⟨hopen, hnone⟩ := isOpen_concat_new ho [] [] hnew
    refine load_branch ht hs hp ho hnew ?_
    exact loadAll_of_saidBy children (p := p ++ [name])
      (r := { r with forest := graft (· ++ [.branch name [] []]) p r.forest })
      ht.2.2 hs.2.2 (hp.concat ht.1) hopen fun m _ => by rw [hnone]; rfl

/-- Loading elements that say a forest grafts the forest, its data reread. -/
theorem loadAll_of_saidBy (f : Forest) {r : Registry} {p : Path} {es : List Element}
    (ht : Forest.Tidy f) (hs : Forest.SaidBy f es) (hp : p.WellFormed) (ho : IsOpen p r.forest)
    (hnew : ∀ n ∈ f, child? n.name (below p r.forest) = none) :
    ∃ ps, r.loadAll p.scopeText es =
      (.ok ps, { r with forest := graft (· ++ Forest.reread f) p r.forest }) := by
  cases f with
  | nil =>
    obtain rfl := hs
    refine ⟨[], ?_⟩
    rw [loadAll, Forest.reread, graft_eq_self List.append_nil]
  | cons n f =>
    obtain ⟨e, rest, rfl, hsaid, hsaids⟩ := hs
    have hload := load_of_saidBy n ht.1 hsaid hp ho (hnew n List.mem_cons_self)
    -- The names that follow are still new, since no two names in a tidy forest are the same.
    obtain ⟨ps, hloads⟩ := loadAll_of_saidBy f
      (r := { r with forest := graft (· ++ [n.reread]) p r.forest }) ht.2.2 hsaids hp
      (isOpen_graft ho) fun m hm => by
        have hne : n.reread.name ≠ m.name := fun h =>
          ht.2.1 (n.name_reread ▸ h ▸ List.mem_map_of_mem hm)
        rw [below_graft ho, child?_append, hnew m (List.mem_cons_of_mem n hm), child?_singleton,
          if_neg hne]
        rfl
    refine ⟨(p ++ [n.name]) :: ps, ?_⟩
    simp only [loadAll, hload, hloads, graft_graft, List.append_assoc, List.singleton_append,
      Forest.reread]

end

/-- Loading elements that say a forest into an empty registry gives that forest, its data reread. -/
theorem loadAll_empty {f : Forest} {es : List Element} (ht : Forest.Tidy f)
    (hs : Forest.SaidBy f es) (name : String) :
    ∃ ps, (empty name).loadAll (empty name).namespaceText es =
      (.ok ps, { empty name with forest := Forest.reread f }) :=
  loadAll_of_saidBy f (r := empty name) (p := []) ht hs (by simp [Path.WellFormed]) trivial
    fun _ _ => rfl

end Registry
end Lockstep
