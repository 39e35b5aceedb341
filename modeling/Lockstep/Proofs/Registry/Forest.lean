import Lockstep.Registry.Basic

/- Looking into a forest after it was changed.

   1. `below` is the forest under a path, and `IsOpen` says that only branches lie on the way there.
      `graft` changes the forest under a path; every change of a forest is one (`plant_eq_graft`,
      `update` keeps children as they are).
   2. `entryAt_update` and `entryAt_graft_concat` say what is found at every path after an entry was
      changed, or a new one was added: the change, the name listed above it, and nothing else. -/
namespace Lockstep.Registry.Forest

variable {name : String} {f : Forest} {g : Node → Node}

/-- The entry at a path. -/
def entryAt (p : Path) (f : Forest) : Option Entry := (get? p f).map Node.entry

/-! ## Nodes side by side -/

theorem name_of_child? {n : Node} (h : child? name f = some n) : n.name = name := by
  simpa using List.find?_some h

theorem mem_of_child? {n : Node} (h : child? name f = some n) : n ∈ f := List.mem_of_find?_eq_some h

theorem child?_eq_none_iff : child? name f = none ↔ name ∉ f.map Node.name := by
  simp [child?, List.find?_eq_none]

theorem child?_append (f h : Forest) :
    child? name (f ++ h) = (child? name f).or (child? name h) := List.find?_append

theorem child?_singleton (n : Node) : child? name [n] = if n.name = name then some n else none := by
  by_cases h : n.name = name <;> simp [child?, h]

theorem map_name_updateChild (name : String) (f : Forest) (hg : ∀ n, (g n).name = n.name) :
    (updateChild name g f).map Node.name = f.map Node.name := by
  induction f with
  | nil => rfl
  | cons n f ih =>
    rw [updateChild]
    split
    · simp [hg]
    · simp [ih]

theorem child?_updateChild (hg : ∀ n, (g n).name = n.name) (other : String) :
    child? other (updateChild name g f) =
      if other = name then (child? name f).map g else child? other f := by
  induction f with
  | nil => simp [updateChild, child?]
  | cons n f ih =>
    simp only [child?] at ih
    by_cases hn : n.name = name
    · by_cases ho : other = name
      · simp [updateChild, child?, hn, ho, hg]
      · simp [updateChild, child?, hn, ho, hg, Ne.symm ho]
    · by_cases ho : other = name
      · simp_all [updateChild, child?]
      · by_cases hno : n.name = other <;> simp_all [updateChild, child?]

theorem updateChild_append_of_none (h : child? name f = none) (f' : Forest) :
    updateChild name g (f ++ f') = f ++ updateChild name g f' := by
  induction f with
  | nil => rfl
  | cons n f ih =>
    simp only [child?, List.find?_cons] at h ih
    split at h
    · cases h
    · rename_i hn
      rw [List.cons_append, updateChild, if_neg (by simpa using hn), ih h, List.cons_append]

theorem updateChild_updateChild (hg : ∀ n, (g n).name = n.name) (k : Node → Node) :
    updateChild name k (updateChild name g f) = updateChild name (fun n => k (g n)) f := by
  induction f with
  | nil => rfl
  | cons n f ih =>
    by_cases h : n.name = name <;> simp [updateChild, h, hg, ih]

theorem updateChild_congr {k : Node → Node} (h : ∀ n, child? name f = some n → g n = k n) :
    updateChild name g f = updateChild name k f := by
  induction f with
  | nil => rfl
  | cons n f ih =>
    by_cases hn : n.name = name
    · simp [updateChild, hn, h n (by simp [child?, hn])]
    · simp only [updateChild, if_neg hn]
      rw [ih fun m hm => h m (by simpa [child?, hn] using hm)]

/-! ## Below a path -/

/-- The forest under a path; nothing lies under a leaf or where there is no node. -/
def below : Path → Forest → Forest
  | [], f => f
  | name :: rest, f =>
    match child? name f with
    | none => []
    | some n => below rest n.children

/-- Only branches lie on the way down a path. -/
def IsOpen : Path → Forest → Prop
  | [], _ => True
  | name :: rest, f => ∃ attributes children,
      child? name f = some (.branch name attributes children) ∧ IsOpen rest children

/-- The forest with what lies under a path changed. -/
def graft (g : Forest → Forest) : Path → Forest → Forest
  | [], f => g f
  | name :: rest, f => updateChild name (Node.mapChildren (graft g rest)) f

theorem below_nil_right (p : Path) : below p [] = [] := by
  cases p <;> rfl

theorem below_append (p q : Path) (f : Forest) : below (p ++ q) f = below q (below p f) := by
  induction p generalizing f with
  | nil => rfl
  | cons name rest ih =>
    simp only [List.cons_append, below]
    split
    · rw [below_nil_right]
    · exact ih _

theorem get?_cons (name : String) {rest : Path} (hne : rest ≠ []) (f : Forest) :
    get? (name :: rest) f = (child? name f).bind fun n => get? rest n.children := by
  cases rest with
  | nil => exact absurd rfl hne
  | cons next rest => rfl

theorem get?_nil_right (p : Path) : get? p [] = none := by
  match p with
  | [] | [_] | _ :: _ :: _ => rfl

/-- A path leads to a child of what lies under its front. -/
theorem get?_append (p : Path) {q : Path} (hne : q ≠ []) (f : Forest) :
    get? (p ++ q) f = get? q (below p f) := by
  induction p generalizing f with
  | nil => rfl
  | cons name rest ih =>
    rw [List.cons_append, get?_cons name (by simp [hne]), below]
    cases child? name f with
    | none => rw [get?_nil_right]; rfl
    | some n => exact ih n.children

theorem get?_concat (p : Path) (name : String) (f : Forest) :
    get? (p ++ [name]) f = child? name (below p f) :=
  get?_append p (List.cons_ne_nil name []) f

theorem below_eq {p : Path} (hne : p ≠ []) (f : Forest) :
    below p f = ((get? p f).map Node.children).getD [] := by
  induction p generalizing f with
  | nil => exact absurd rfl hne
  | cons name rest ih =>
    cases rest with
    | nil =>
      simp only [below, get?]
      cases child? name f <;> rfl
    | cons next rest =>
      rw [get?_cons name (List.cons_ne_nil next rest), below]
      cases child? name f with
      | none => rfl
      | some n => exact ih (List.cons_ne_nil next rest) n.children

theorem ne_nil_of_get? {p : Path} {f : Forest} {n : Node} (h : get? p f = some n) : p ≠ [] := by
  rintro rfl
  cases h

theorem below_of_get? {p : Path} {f : Forest} {n : Node} (hne : p ≠ []) (h : get? p f = some n) :
    below p f = n.children := by
  rw [below_eq hne, h]
  rfl

theorem isOpen_concat {p : Path} {name : String} {f : Forest} :
    IsOpen (p ++ [name]) f ↔ IsOpen p f ∧ ∃ attributes children,
      child? name (below p f) = some (.branch name attributes children) := by
  induction p generalizing f with
  | nil => simp [IsOpen, below]
  | cons first rest ih =>
    simp only [List.cons_append, IsOpen, ih]
    constructor
    · rintro ⟨attributes, children, hchild, hopen, hbranch⟩
      refine ⟨⟨attributes, children, hchild, hopen⟩, ?_⟩
      rw [below, hchild]
      exact hbranch
    · rintro ⟨⟨attributes, children, hchild, hopen⟩, hbranch⟩
      rw [below, hchild] at hbranch
      exact ⟨attributes, children, hchild, hopen, hbranch⟩

/-- The entry that an open path leads to is a container of what lies below. -/
theorem entryAt_of_isOpen {p : Path} (hne : p ≠ []) (h : IsOpen p f) :
    ∃ attributes, entryAt p f = some ⟨.container ((below p f).map Node.name), attributes⟩ := by
  induction p generalizing f with
  | nil => exact absurd rfl hne
  | cons name rest ih =>
    obtain ⟨attributes, children, hchild, hopen⟩ := h
    cases rest with
    | nil => exact ⟨attributes, by simp [entryAt, get?, hchild, below, Node.entry, Node.value,
        Node.attributes, Node.children]⟩
    | cons next rest =>
      obtain ⟨attributes', hentry⟩ := ih (List.cons_ne_nil next rest) hopen
      refine ⟨attributes', ?_⟩
      rw [entryAt, get?_cons name (List.cons_ne_nil next rest), below, hchild]
      exact hentry

/-! ## Grafting -/

theorem graft_congr {g h : Forest → Forest} {p : Path} (heq : g (below p f) = h (below p f)) :
    graft g p f = graft h p f := by
  induction p generalizing f with
  | nil => exact heq
  | cons name rest ih =>
    rw [graft, graft]
    apply updateChild_congr
    intro n hn
    rw [below, hn] at heq
    cases n with
    | leaf => rfl
    | branch name attributes children => exact congrArg (Node.branch name attributes) (ih heq)

theorem graft_append (g : Forest → Forest) (p q : Path) (f : Forest) :
    graft g (p ++ q) f = graft (graft g q) p f := by
  induction p generalizing f with
  | nil => rfl
  | cons name rest ih =>
    rw [List.cons_append, graft, graft]
    apply updateChild_congr
    intro n _
    cases n with
    | leaf => rfl
    | branch name attributes children => exact congrArg (Node.branch name attributes) (ih children)

theorem graft_graft (g h : Forest → Forest) (p : Path) (f : Forest) :
    graft g p (graft h p f) = graft (fun f => g (h f)) p f := by
  induction p generalizing f with
  | nil => rfl
  | cons name rest ih =>
    rw [graft, graft, graft, updateChild_updateChild fun n => Node.name_mapChildren _ n]
    apply updateChild_congr
    intro n _
    cases n with
    | leaf => rfl
    | branch name attributes children => exact congrArg (Node.branch name attributes) (ih children)

/-- Grafting what leaves every forest as it is changes nothing. -/
theorem graft_eq_self {g : Forest → Forest} (h : ∀ f, g f = f) (p : Path) (f : Forest) :
    graft g p f = f := by
  induction p generalizing f with
  | nil => exact h f
  | cons name rest ih =>
    have hself : ∀ n : Node, n.mapChildren (graft g rest) = n := by
      intro n
      cases n with
      | leaf => rfl
      | branch name attributes children => exact congrArg (Node.branch name attributes) (ih children)
    rw [graft]
    induction f with
    | nil => rfl
    | cons n f ihf =>
      rw [updateChild, hself, ihf, ite_self]

theorem below_graft {g : Forest → Forest} {p : Path} (h : IsOpen p f) :
    below p (graft g p f) = g (below p f) := by
  induction p generalizing f with
  | nil => rfl
  | cons name rest ih =>
    obtain ⟨attributes, children, hchild, hopen⟩ := h
    rw [below, graft, child?_updateChild fun n => Node.name_mapChildren _ n, if_pos rfl, hchild,
      below, hchild]
    exact ih hopen

theorem isOpen_graft {g : Forest → Forest} {p : Path} (h : IsOpen p f) : IsOpen p (graft g p f) := by
  induction p generalizing f with
  | nil => trivial
  | cons name rest ih =>
    obtain ⟨attributes, children, hchild, hopen⟩ := h
    refine ⟨attributes, graft g rest children, ?_, ih hopen⟩
    rw [graft, child?_updateChild fun n => Node.name_mapChildren _ n, if_pos rfl, hchild]
    rfl

/-- A new node that is changed after it was added is the changed node added. -/
theorem graft_concat_new {p : Path} {m : Node} (hnew : child? m.name (below p f) = none)
    (g : Node → Node) :
    graft (updateChild m.name g) p (graft (· ++ [m]) p f) = graft (· ++ [g m]) p f := by
  rw [graft_graft]
  apply graft_congr
  show updateChild m.name g (below p f ++ [m]) = below p f ++ [g m]
  rw [updateChild_append_of_none hnew, updateChild, if_pos rfl]

/-- Once a branch was added below an open path, its own path is open, and nothing but its children
    lies below it. -/
theorem isOpen_concat_new {p : Path} (ho : IsOpen p f) (attributes : Attributes)
    (children : Forest) (hnew : child? name (below p f) = none) :
    IsOpen (p ++ [name]) (graft (· ++ [.branch name attributes children]) p f) ∧
      below (p ++ [name]) (graft (· ++ [.branch name attributes children]) p f) = children := by
  have hchild : child? name (below p (graft (· ++ [.branch name attributes children]) p f)) =
      some (.branch name attributes children) := by
    rw [below_graft ho, child?_append, hnew, child?_singleton, Option.none_or]
    exact if_pos rfl
  refine ⟨isOpen_concat.2 ⟨isOpen_graft ho, attributes, children, hchild⟩, ?_⟩
  rw [below_append, below, hchild]
  rfl

/-! ## What a change changes -/

/-- A container with one more name. -/
def listName (name : String) (e : Entry) : Entry :=
  match e.value with
  | .container names => { e with value := .container (names ++ [name]) }
  | .datum _ => e

/-- After a node without children was added below an open path: the node, its name listed above it,
    and every other entry as it was. -/
theorem entryAt_graft_concat {p : Path} {m : Node} (ho : IsOpen p f) (hm : m.children = [])
    (hnew : child? m.name (below p f) = none) (q : Path) :
    entryAt q (graft (· ++ [m]) p f) =
      if q = p ++ [m.name] then some m.entry
      else if q = p then (entryAt q f).map (listName m.name) else entryAt q f := by
  -- `entryAt` tells paths of no, one and more names apart, and so do the cases for `q`.
  induction p generalizing f q with
  | nil =>
    match q with
    | [] => simp [entryAt, get?]
    | [x] =>
      by_cases hx : x = m.name
      · subst hx
        simp [entryAt, get?, graft, child?_append, child?_singleton, show child? m.name f = none from hnew]
      · simp [entryAt, get?, graft, child?_append, child?_singleton, hx, Ne.symm hx]
    | x :: y :: rest =>
      simp only [entryAt, graft, get?, child?_append, child?_singleton, List.nil_append,
        List.cons.injEq, reduceCtorEq, and_false, if_false]
      by_cases hx : m.name = x
      · subst hx
        simp [show child? m.name f = none from hnew, hm, get?_nil_right]
      · simp [hx]
  | cons name rest ih =>
    obtain ⟨attributes, children, hchild, hopen⟩ := ho
    have hgraft : ∀ x, child? x (graft (· ++ [m]) (name :: rest) f) =
        if x = name then some (.branch name attributes (graft (· ++ [m]) rest children))
        else child? x f := by
      intro x
      rw [graft, child?_updateChild fun n => Node.name_mapChildren _ n, hchild]
      rfl
    rw [below, hchild] at hnew
    match q with
    | [] => simp [entryAt, get?]
    | [x] =>
      by_cases hx : x = name
      · subst hx
        simp only [entryAt, get?, hgraft, hchild, if_true, Option.map_some, List.cons_append,
          List.cons.injEq, true_and]
        cases rest with
        | nil => simp [graft, listName, Node.entry, Node.value, Node.attributes]
        | cons next rest =>
          have hnames := map_name_updateChild next children
            fun n => Node.name_mapChildren (graft (· ++ [m]) rest) n
          simp [graft, Node.entry, Node.value, Node.attributes, hnames]
      · simp [entryAt, get?, hgraft, hx]
    | x :: y :: tail =>
      by_cases hx : x = name
      · subst hx
        have hrest := ih hopen hnew (y :: tail)
        simp only [entryAt, get?, hgraft, hchild, if_true, Option.bind_some, Node.children,
          List.cons_append, List.cons.injEq, true_and] at hrest ⊢
        exact hrest
      · simp [entryAt, get?, hgraft, hx]

theorem update_nil (g : Node → Node) (p : Path) : update g p [] = [] := by
  match p with
  | [] | [_] | _ :: _ :: _ => rfl

theorem children_mapChildren {h : Forest → Forest} (hnil : h [] = []) (n : Node) :
    (n.mapChildren h).children = h n.children := by
  cases n with
  | leaf => exact hnil.symm
  | branch => rfl

theorem map_name_update (hg : ∀ n, (g n).name = n.name) (p : Path) (f : Forest) :
    (update g p f).map Node.name = f.map Node.name := by
  match p with
  | [] => rfl
  | [name] => exact map_name_updateChild name f hg
  | name :: next :: rest => exact map_name_updateChild name f fun n => Node.name_mapChildren _ n

/-- After the node at a path was changed, but neither its name nor its children: the new entry, and
    every other as it was. -/
theorem entryAt_update (hname : ∀ n, (g n).name = n.name) (hchildren : ∀ n, (g n).children = n.children)
    (p q : Path) (f : Forest) :
    entryAt q (update g p f) =
      if q = p then (get? p f).map fun n => (g n).entry else entryAt q f := by
  induction p generalizing f q with
  | nil =>
    by_cases hq : q = []
    · subst hq
      rfl
    · rw [if_neg hq]
      rfl
  | cons name rest ih =>
    cases rest with
    | nil =>
      match q with
      | [] => simp [entryAt, get?]
      | [x] =>
        by_cases hx : x = name
        · subst hx
          simp [entryAt, update, get?, child?_updateChild hname, Function.comp_def]
        · simp [entryAt, update, get?, child?_updateChild hname, hx]
      | x :: y :: tail =>
        by_cases hx : x = name
        · subst hx
          cases hc : child? x f <;>
            simp [entryAt, update, get?, child?_updateChild hname, hc, hchildren]
        · simp [entryAt, update, get?, child?_updateChild hname, hx]
    | cons next rest =>
      -- A node on the way lists the same names as before.
      have hnames : ∀ n : Node, (n.mapChildren (update g (next :: rest))).entry = n.entry := by
        intro n
        cases n with
        | leaf => rfl
        | branch => simp [Node.mapChildren, Node.entry, Node.value, Node.attributes,
            map_name_update hname]
      have hupdate : ∀ x, child? x (update g (name :: next :: rest) f) =
          if x = name then (child? name f).map (Node.mapChildren (update g (next :: rest)))
          else child? x f := fun x => child?_updateChild (fun n => Node.name_mapChildren _ n) x
      match q with
      | [] => simp [entryAt, get?]
      | [x] =>
        by_cases hx : x = name
        · subst hx
          cases hc : child? x f <;> simp [entryAt, get?, hupdate, hc, hnames]
        · simp [entryAt, get?, hupdate, hx]
      | x :: y :: tail =>
        by_cases hx : x = name
        · subst hx
          cases hc : child? x f with
          | none => simp [entryAt, get?, hupdate, hc]
          | some n =>
            have hrest := ih (y :: tail) n.children
            simp only [entryAt, List.cons.injEq, true_and] at hrest ⊢
            simp only [get?, hupdate, if_true, hc, Option.map_some, Option.bind_some,
              children_mapChildren (update_nil g (next :: rest))]
            exact hrest
        · simp [entryAt, get?, hupdate, hx]

/-! ## Planting -/

theorem plant_nil (v : Value) (above : Path) (name : String) (rest : Path) :
    plant v above (name :: rest) [] = .ok [Node.chain v name rest] := by
  cases rest <;> rfl

/-- Where nothing is in the way, planting is grafting the missing chain. -/
theorem plant_of_none (v : Value) (above : Path) {name : String} (h : child? name f = none)
    (rest : Path) : plant v above (name :: rest) f = .ok (f ++ [Node.chain v name rest]) := by
  cases rest with
  | nil => rfl
  | cons next rest => simp [plant, h]

/-- Below an open path, planting under a new name is grafting a new node. -/
theorem plant_concat {p : Path} (ho : IsOpen p f) (hnew : child? name (below p f) = none) (v : Value)
    (above : Path) :
    plant v above (p ++ [name]) f = .ok (graft (· ++ [Node.fresh name v]) p f) := by
  induction p generalizing f above with
  | nil => rfl
  | cons first rest ih =>
    obtain ⟨attributes, children, hchild, hopen⟩ := ho
    rw [below, hchild] at hnew
    have hgrown := ih hopen hnew (above ++ [first])
    have hgraft : updateChild first (Node.mapChildren fun _ =>
        graft (· ++ [Node.fresh name v]) rest children) f =
        graft (· ++ [Node.fresh name v]) (first :: rest) f := by
      apply updateChild_congr
      intro n hn
      rw [hchild] at hn
      cases hn
      rfl
    cases hrest : rest ++ [name] with
    | nil => cases rest <;> cases hrest
    | cons next tail =>
      rw [hrest] at hgrown
      rw [List.cons_append, hrest, plant, hchild]
      dsimp only
      rw [hgrown]
      exact congrArg Except.ok hgraft

/-- A new name is found where it was added. -/
theorem get?_chain (v : Value) (name : String) (rest : Path) :
    ∃ leaf, get? (name :: rest) [Node.chain v name rest] = some (Node.fresh leaf v) := by
  induction rest generalizing name with
  | nil =>
    refine ⟨name, (child?_singleton _).trans (if_pos ?_)⟩
    exact Node.name_fresh name v
  | cons next rest ih =>
    obtain ⟨leaf, hleaf⟩ := ih next
    refine ⟨leaf, ?_⟩
    have hchild : child? name [Node.chain v name (next :: rest)] =
        some (.branch name [] [Node.chain v next rest]) := (child?_singleton _).trans (if_pos rfl)
    rw [get?, hchild]
    exact hleaf

/-- Where there was none, a new node is planted. -/
theorem get?_plant {v : Value} {above p : Path} {f grown : Forest} (hne : p ≠ [])
    (hp : get? p f = none) (h : plant v above p f = .ok grown) :
    ∃ leaf, get? p grown = some (Node.fresh leaf v) := by
  induction p generalizing above f grown with
  | nil => exact absurd rfl hne
  | cons name rest ih =>
    cases hchild : child? name f with
    | none =>
      rw [plant_of_none v above hchild rest] at h
      obtain rfl := Except.ok.inj h
      obtain ⟨leaf, hleaf⟩ := get?_chain v name rest
      refine ⟨leaf, ?_⟩
      -- The chain stands behind nodes of other names, so it is what its name finds.
      rw [← hleaf]
      cases rest with
      | nil => rw [get?, get?, child?_append, hchild, Option.none_or]
      | cons next rest => rw [get?, get?, child?_append, hchild, Option.none_or]
    | some n =>
      cases rest with
      | nil => exact absurd (hchild.symm.trans hp) nofun
      | cons next rest =>
        rw [get?, hchild] at hp
        simp only [plant, hchild] at h
        cases n with
        | leaf => cases h
        | branch _ attributes children =>
          dsimp only at h
          cases hgrown : plant v (above ++ [name]) (next :: rest) children with
          | error e =>
            rw [hgrown] at h
            cases h
          | ok below =>
            rw [hgrown] at h
            obtain rfl := Except.ok.inj h
            obtain ⟨leaf, hleaf⟩ := ih (List.cons_ne_nil next rest) hp hgrown
            refine ⟨leaf, ?_⟩
            rw [get?, child?_updateChild fun n => Node.name_mapChildren _ n, if_pos rfl, hchild]
            exact hleaf

/-- Changing a node is grafting the change of its name. -/
theorem update_concat (g : Node → Node) (p : Path) (name : String) (f : Forest) :
    update g (p ++ [name]) f = graft (updateChild name g) p f := by
  induction p generalizing f with
  | nil => rfl
  | cons first rest ih =>
    have hrest : update g (rest ++ [name]) = graft (updateChild name g) rest := funext ih
    cases hcons : rest ++ [name] with
    | nil => cases rest <;> cases hcons
    | cons next tail =>
      rw [List.cons_append, hcons, update, ← hcons, hrest]
      rfl

/-! ## Listing -/

theorem mem_listing_self (n : Node) {above : Path} :
    (above ++ [n.name], n) ∈ n.listing above := by
  cases n <;> exact List.mem_cons_self

/-- What holds of all that is listed holds of the first node, of what lies below it, and of the rest. -/
theorem forall_mem_listing_cons {P : Path × Node → Prop} {n : Node} {above : Path}
    (h : ∀ found ∈ listing above (n :: f), P found) :
    P (above ++ [n.name], n) ∧ (∀ found ∈ listing (above ++ [n.name]) n.children, P found) ∧
      ∀ found ∈ listing above f, P found := by
  rw [listing] at h
  refine ⟨h _ (List.mem_append_left _ (mem_listing_self n)), fun found hfound => ?_,
    fun found hfound => h found (List.mem_append_right _ hfound)⟩
  refine h found (List.mem_append_left _ ?_)
  cases n with
  | leaf name attributes datum => cases hfound
  | branch name attributes children => exact List.mem_cons_of_mem _ hfound

theorem mem_listing_of_mem {n : Node} (hn : n ∈ f) {above : Path} {found : Path × Node}
    (hfound : found ∈ n.listing above) : found ∈ listing above f := by
  induction f with
  | nil => cases hn
  | cons m f ih =>
    rw [listing, List.mem_append]
    rcases List.mem_cons.1 hn with rfl | hn
    · exact .inl hfound
    · exact .inr (ih hn)

/-- What a path leads to is listed with the path. -/
theorem mem_listing_of_get? {p : Path} {n : Node} (h : get? p f = some n) (above : Path) :
    (above ++ p, n) ∈ listing above f := by
  induction p generalizing f above with
  | nil => cases h
  | cons name rest ih =>
    cases rest with
    | nil =>
      rw [← name_of_child? h]
      exact mem_listing_of_mem (mem_of_child? h) (mem_listing_self n)
    | cons next rest =>
      rw [get?_cons name (List.cons_ne_nil next rest)] at h
      obtain ⟨m, hm, hrest⟩ := Option.bind_eq_some_iff.1 h
      have hlisted := ih hrest (above ++ [name])
      rw [List.append_assoc, List.singleton_append] at hlisted
      refine mem_listing_of_mem (mem_of_child? hm) ?_
      cases m with
      | leaf name' attributes datum =>
        have hnone := (get?_nil_right (next :: rest)).symm.trans hrest
        cases hnone
      | branch name' attributes children =>
        obtain rfl : name' = name := name_of_child? hm
        exact List.mem_cons_of_mem _ hlisted

end Lockstep.Registry.Forest
