import Lockstep.Proofs.Registry.Change
import Lockstep.Proofs.Registry.Forest
import Lockstep.Registry.Ledger

/- The ledger does what the registry does.

   1. One step on the table of a forest is one change of the forest: `insert_of` for a new entry,
      `put_of_update` for a changed one.
   2. From these, every operation on the table of a forest ends as the operation on the registry
      does, with the same error or none, and leaves the table of the registry that is left
      (`addAt_of`, `load_of`, `perform_of`). So a table keeps the shape of a forest, and a step that
      fails after it changed something changes the forest in the same way. -/
namespace Lockstep.Registry
open Forest

namespace Table

theorem ext {t t' : Table} (he : ∀ p, t.lookup? p = t'.lookup? p) (hr : t.roots = t'.roots) :
    t = t' := by
  obtain ⟨lookup?, roots⟩ := t
  obtain ⟨lookup?', roots'⟩ := t'
  obtain rfl : lookup? = lookup?' := funext he
  obtain rfl : roots = roots' := hr
  rfl

variable {f : Forest} {r : Registry}

theorem lookup?_of (p : Path) (f : Forest) : (of f).lookup? p = entryAt p f := rfl

theorem lookup?_of_get? {p : Path} {n : Node} (h : get? p f = some n) :
    (of f).lookup? p = some n.entry := by
  rw [lookup?_of, entryAt, h]
  rfl

theorem lookup?_of_none {p : Path} (h : get? p f = none) : (of f).lookup? p = none := by
  rw [lookup?_of, entryAt, h]
  rfl

theorem contains_of (r : Registry) (p : Path) : (of r.forest).contains p = r.contains p := by
  simp [contains, Registry.contains, lookup?_of, entryAt]

/-- A changed entry put in its place is the changed node. -/
theorem put_of_update {g : Node → Node} (hname : ∀ n, (g n).name = n.name)
    (hchildren : ∀ n, (g n).children = n.children) {p : Path} {n : Node} (hn : get? p f = some n) :
    (of f).put p (g n).entry = of (update g p f) := by
  refine ext (fun q => ?_) (map_name_update hname p f).symm
  show (if q = p then some (g n).entry else entryAt q f) = entryAt q (update g p f)
  rw [entryAt_update hname hchildren, hn]
  rfl

theorem concat_ne (p : Path) (name : String) : p ++ [name] ≠ p := by
  intro h
  have := congrArg List.length h
  simp at this

section
variable {m : Node}

/-- A new top-level entry is a new node behind the others. -/
theorem insert_root (hm : m.children = []) (hattributes : m.attributes = [])
    (hnew : child? m.name f = none) :
    (of f).insert [] m.name m.value = (.ok (), of (f ++ [m])) := by
  have hentry : (⟨m.value, []⟩ : Entry) = m.entry := by rw [Node.entry, hattributes]
  have hroots : ¬ m.name ∈ ((of f).put ([] ++ [m.name]) m.entry).roots := child?_eq_none_iff.1 hnew
  rw [insert, hentry, link]
  simp only [if_neg hroots]
  refine Prod.ext rfl (ext (fun q => ?_) ?_)
  · rw [show (of (f ++ [m])).lookup? q = _ from entryAt_graft_concat (p := []) trivial hm hnew q]
    show (if q = [] ++ [m.name] then some m.entry else entryAt q f) = _
    split
    · rfl
    · split
      · rename_i hq
        subst hq
        rfl
      · rfl
  · simp [put, of]

/-- A new entry, listed in the container above it, is a new node there. -/
theorem insert_below {p : Path} (hne : p ≠ []) (ho : IsOpen p f) (hm : m.children = [])
    (hattributes : m.attributes = []) (hnew : child? m.name (below p f) = none) :
    (of f).insert p m.name m.value = (.ok (), of (graft (· ++ [m]) p f)) := by
  have hentry : (⟨m.value, []⟩ : Entry) = m.entry := by rw [Node.entry, hattributes]
  obtain ⟨attributes, habove⟩ := entryAt_of_isOpen hne ho
  have hself : ((of f).put (p ++ [m.name]) m.entry).lookup? p =
      some ⟨.container ((below p f).map Node.name), attributes⟩ :=
    (if_neg (concat_ne p m.name).symm).trans habove
  have hextend := Value.extend_singleton (child?_eq_none_iff.1 hnew)
  obtain ⟨first, rest, rfl⟩ := List.exists_cons_of_ne_nil hne
  simp only [insert, hentry, link, hself, hextend]
  refine Prod.ext rfl (ext (fun q => ?_) ?_)
  · -- Three entries may be at `q`: the container, which lists the name now, the new one, or another.
    rw [show (of (graft (· ++ [m]) (first :: rest) f)).lookup? q = _ from
      entryAt_graft_concat ho hm hnew q]
    show (if q = first :: rest then _ else
      if q = first :: rest ++ [m.name] then some m.entry else entryAt q f) = _
    by_cases hlast : q = first :: rest ++ [m.name]
    · rw [if_pos hlast, if_neg (hlast ▸ concat_ne _ _), if_pos hlast]
    · rw [if_neg hlast, if_neg hlast]
      by_cases hq : q = first :: rest
      · rw [if_pos hq, if_pos hq, hq, habove]
        rfl
      · rw [if_neg hq, if_neg hq]
  · have hnames := map_name_updateChild first f
      fun n => Node.name_mapChildren (graft (· ++ [m]) rest) n
    exact hnames.symm

/-- A new entry is a new node. -/
theorem insert_of {p : Path} (ho : IsOpen p f) (hm : m.children = [])
    (hattributes : m.attributes = []) (hnew : child? m.name (below p f) = none) :
    (of f).insert p m.name m.value = (.ok (), of (graft (· ++ [m]) p f)) := by
  cases p with
  | nil => exact insert_root hm hattributes hnew
  | cons first rest => exact insert_below (List.cons_ne_nil first rest) ho hm hattributes hnew

end

/-! ## Adding -/

theorem fresh_children (name : String) (v : Value) : (Node.fresh name v).children = [] := by
  cases v <;> rfl

theorem fresh_attributes (name : String) (v : Value) : (Node.fresh name v).attributes = [] := by
  cases v <;> rfl

theorem fresh_value {v : Value} (hv : childNames v = []) (name : String) :
    (Node.fresh name v).value = v := by
  cases v with
  | datum d => rfl
  | container names =>
    obtain rfl : names = [] := hv
    rfl

theorem insert_fresh {v : Value} (hv : childNames v = []) {p : Path} {name : String}
    (ho : IsOpen p f) (hnew : child? name (below p f) = none) :
    (of f).insert p name v = (.ok (), of (graft (· ++ [Node.fresh name v]) p f)) := by
  have h := insert_of (m := Node.fresh name v) ho (fresh_children name v) (fresh_attributes name v)
    (by rw [Node.name_fresh]; exact hnew)
  rwa [Node.name_fresh, fresh_value hv] at h

/-- Growing a path on the table is planting it in the forest. A leaf in the way is met before
    anything is added. -/
theorem grow_of {v : Value} (hv : childNames v = []) (p : Path) (above : Path) (f : Forest)
    (ho : IsOpen above f) (hne : p ≠ []) (hnew : get? (above ++ p) f = none) :
    (of f).grow v above p =
      match plant v above p (below above f) with
      | .error e => (.error e, of f)
      | .ok grown => (.ok (), of (graft (fun _ => grown) above f)) := by
  induction p generalizing above f with
  | nil => exact absurd rfl hne
  | cons name rest ih =>
    cases rest with
    | nil =>
      rw [get?_concat] at hnew
      simp only [grow, plant, insert_fresh hv ho hnew]
      rw [graft_congr (h := fun _ => below above f ++ [Node.fresh name v]) rfl]
    | cons next rest =>
      have hrest := List.cons_ne_nil next rest
      have hsplit : above ++ name :: next :: rest = above ++ [name] ++ next :: rest := by simp
      rw [hsplit] at hnew
      cases hchild : child? name (below above f) with
      | none =>
        -- The container made here is open and empty, so the rest of the path grows in it.
        obtain ⟨hopen, hbelow⟩ := isOpen_concat_new ho [] [] hchild
        have htail := ih _ _ hopen hrest (by rw [get?_append _ hrest, hbelow, get?_nil_right])
        have hgrown := graft_concat_new (m := .branch name [] []) hchild
          (Node.mapChildren fun _ => [Node.chain v next rest])
        rw [hbelow, plant_nil] at htail
        rw [grow, lookup?_of_none (by rw [get?_concat, hchild]), plant_of_none v above hchild]
        simp only [insert_fresh (v := .container []) rfl ho hchild, Node.fresh, htail]
        rw [graft_append]
        refine Prod.ext rfl (congrArg of (hgrown.trans (graft_congr ?_)))
        rfl
      | some n =>
        have hentry := lookup?_of_get? (f := f) (p := above ++ [name]) (by rw [get?_concat, hchild])
        obtain rfl : n.name = name := name_of_child? hchild
        cases n with
        | leaf name attributes datum =>
          have hkind : (Node.leaf name attributes datum).entry.value.kind ≠ .container := by
            cases datum <;> exact fun h => by cases h
          simp only [Node.name] at hchild hentry ⊢
          simp only [grow, hentry, if_neg hkind, plant, hchild]
        | branch name attributes children =>
          simp only [Node.name] at hchild hentry hnew ⊢
          have hopen : IsOpen (above ++ [name]) f := isOpen_concat.2 ⟨ho, attributes, children, hchild⟩
          have hbelow : below (above ++ [name]) f = children := by
            rw [below_append, below, hchild]
            rfl
          have htail := ih _ _ hopen hrest hnew
          rw [hbelow] at htail
          have hkind : (Node.branch name attributes children).entry.value.kind = .container := rfl
          simp only [grow, hentry, plant, hchild]
          rw [if_pos hkind, htail]
          cases plant v (above ++ [name]) (next :: rest) children with
          | error e => rfl
          | ok grown =>
            simp only [graft_append]
            rw [graft_congr (g := graft (fun _ => grown) [name]) (h := fun _ =>
              updateChild name (Node.mapChildren fun _ => grown) (below above f)) rfl]

theorem checkChildren_of (r : Registry) (p : Path) (names : List String) :
    (of r.forest).checkChildren p names = r.checkChildren p names := by
  induction names with
  | nil => rfl
  | cons name rest ih => simp only [checkChildren, Registry.checkChildren, contains_of, ih]

/-- When the children that a value brings are there, so is the entry above them. -/
theorem childNames_eq_nil {p : Path} {v : Value} (h : r.checkChildren p (childNames v) = .ok ())
    (hnew : get? p r.forest = none) (hne : p ≠ []) : childNames v = [] := by
  cases hnames : childNames v with
  | nil => rfl
  | cons name rest =>
    rw [hnames] at h
    simp only [Registry.checkChildren] at h
    split at h
    · split at h
      · rename_i hcontains
        rw [Registry.contains, get?_concat, below_eq hne, hnew] at hcontains
        cases hcontains
      · cases h
    · cases h

theorem mem_of_checkChildren {p : Path} {names : List String}
    (h : r.checkChildren p names = .ok ()) :
    ∀ name ∈ names, name ∈ (below p r.forest).map Node.name := by
  induction names with
  | nil => simp
  | cons name rest ih =>
    simp only [Registry.checkChildren] at h
    split at h
    · split at h
      · rename_i hcontains
        intro other hother
        rcases List.mem_cons.1 hother with rfl | hother
        · rw [Registry.contains, get?_concat] at hcontains
          apply Classical.byContradiction
          intro hnot
          rw [child?_eq_none_iff.2 hnot] at hcontains
          cases hcontains
        · exact ih h other hother
      · cases h
    · cases h

/-- Names brought to a container that is there change nothing: it lists them already. -/
theorem extend_of_checkChildren {p : Path} (hne : p ≠ []) {names : List String} {n : Node}
    (hn : get? p r.forest = some n) (hcheck : r.checkChildren p names = .ok ())
    (hkind : n.kind = .container) : n.value.extend names = .ok (0, n.value) := by
  cases n with
  | leaf _ _ datum => cases datum <;> cases hkind
  | branch name attributes children =>
    have hmem := mem_of_checkChildren hcheck
    rw [below_of_get? hne hn, show (Node.branch name attributes children).children = children from rfl]
      at hmem
    exact Value.extend_of_forall_mem hmem

theorem addAt_of {p : Path} (hne : p ≠ []) (r : Registry) (v : Value) :
    (of r.forest).addAt p v =
      match r.addAt p v with
      | .error e => (.error e, of r.forest)
      | .ok r' => (.ok (), of r'.forest) := by
  simp only [addAt, Registry.addAt, checkChildren_of]
  cases hcheck : r.checkChildren p (childNames v) with
  | error e => rfl
  | ok _ =>
    cases hn : get? p r.forest with
    | none =>
      have hv := childNames_eq_nil hcheck hn hne
      have hgrow := grow_of hv p [] r.forest trivial hne hn
      simp only [lookup?_of_none hn, hgrow]
      show (match plant v [] p r.forest with | .error e => _ | .ok grown => _) = _
      cases plant v [] p r.forest <;> rfl
    | some n =>
      have hput := put_of_update (fun n => Node.name_assign v n) (Node.children_assign v) hn
      simp only [lookup?_of_get? hn]
      by_cases hkind : n.kind = v.kind
      · rw [if_pos hkind, if_pos (show n.entry.value.kind = v.kind from hkind)]
        cases v with
        | datum d =>
          have hentry : (n.assign (.datum d)).entry = ⟨.datum d, n.entry.attributes⟩ := by
            cases n with
            | leaf => rfl
            | branch => cases d <;> cases hkind
          rw [hentry] at hput
          exact Prod.ext rfl hput
        | container names =>
          -- All of these names are listed already, or they would not have been let in.
          have hextend : n.entry.value.extend names = .ok (0, n.value) :=
            extend_of_checkChildren hne hn hcheck hkind
          have hassign : n.assign (.container names) = n := by cases n <;> rfl
          rw [hassign] at hput
          simp only [hextend]
          exact Prod.ext rfl hput
      · rw [if_neg hkind, if_neg (show ¬ n.entry.value.kind = v.kind from hkind)]
        rfl

theorem addIn_of (r : Registry) (name scope : String) (v : Value) :
    (of r.forest).addIn name scope v =
      match r.addIn name scope v with
      | .error e => (.error e, of r.forest)
      | .ok (p, r') => (.ok p, of r'.forest) := by
  simp only [addIn, Registry.addIn]
  cases hp : Path.ofName name scope with
  | error e => rfl
  | ok p =>
    simp only [addAt_of (Path.ne_nil_of_ofName hp)]
    cases r.addAt p v <;> rfl

theorem assign_of (r : Registry) (assignment : String) :
    (of r.forest).assign r.namespaceText assignment =
      match r.assign assignment with
      | .error e => (.error e, of r.forest)
      | .ok (p, r') => (.ok p, of r'.forest) := by
  simp only [assign, Registry.assign]
  cases Text.cutFirst? '=' assignment.toList with
  | none => rfl
  | some parts =>
    obtain ⟨name, text⟩ := parts
    simp only
    cases hp : Path.ofName (String.ofList name) r.namespaceText with
    | error e => rfl
    | ok p =>
      have hne := Path.ne_nil_of_ofName hp
      -- The table looks the name up once more, now as an absolute name.
      have hagain := Path.ofName_text hne (Path.wellFormed_of_ofName hp) "/"
      have hentry : (of r.forest).lookup? p = r.entry? p := rfl
      simp only [addIn, hagain, addAt_of hne, hentry]
      cases r.entry? p with
      | none =>
        cases r.addAt p (Value.ofBody (Kind.infer (String.ofList text)) (String.ofList text)
          defaultSeparator) <;> rfl
      | some e =>
        cases r.addAt p (Value.ofBody e.value.kind (String.ofList text) e.separator) <;> rfl

theorem setAttributesAt_of (r : Registry) (p : Path) (pairs : Attributes) :
    (of r.forest).setAttributesAt p pairs = of (r.setAttributesAt p pairs).forest := by
  have hput := @put_of_update r.forest (Node.mapAttributes fun held => held.setAll pairs)
    (fun n => Node.name_mapAttributes _ n) (fun n => Node.children_mapAttributes _ n) p
  rw [setAttributesAt, Registry.setAttributesAt]
  cases hn : get? p r.forest with
  | none =>
    rw [lookup?_of_none hn]
    refine ext (fun q => ?_) (map_name_update (fun n => Node.name_mapAttributes _ n) p _).symm
    show entryAt q r.forest = entryAt q (update _ p r.forest)
    rw [entryAt_update (fun n => Node.name_mapAttributes _ n)
      (fun n => Node.children_mapAttributes _ n), hn]
    split
    · rename_i hq
      rw [hq, entryAt, hn]
      rfl
    · rfl
  | some n =>
    rw [lookup?_of_get? hn]
    rw [← hput hn]
    cases n <;> rfl

/-- Loading an element that has no children. -/
theorem load_datum_of (r : Registry) (name scope : String) (v : Value) (kept : Attributes) :
    (match (of r.forest).addIn name scope v with
      | (.error e, t') => (.error e, t')
      | (.ok p, t') => (.ok p, t'.setAttributesAt p kept)) =
      ((match r.addIn name scope v with
        | .error e => (.error e, r)
        | .ok (p, r') => (.ok p, r'.setAttributesAt p kept) : Except Error Path × Registry).1,
      of (match r.addIn name scope v with
        | .error e => (.error e, r)
        | .ok (p, r') => (.ok p, r'.setAttributesAt p kept) : Except Error Path × Registry).2.forest) := by
  rw [addIn_of]
  cases r.addIn name scope v with
  | error e => rfl
  | ok added => simp only [setAttributesAt_of]

mutual

/-- Loading an element into the table is loading it into the registry, up to the same error. -/
theorem load_of (r : Registry) (scope : String) (e : Markup.Element) :
    (of r.forest).load scope e = ((r.load scope e).1, of (r.load scope e).2.forest) := by
  obtain ⟨name, attributes, text, children, bodyStart, bodyEnd⟩ := e
  simp only [load, Registry.load]
  cases elementKind attributes text children with
  | error e => rfl
  | ok kind =>
    cases kind with
    | container =>
      simp only [addIn_of]
      cases r.addIn name scope (.container []) with
      | error e => rfl
      | ok added =>
        simp only [loadAll_of added.2 _ children]
        cases hall : added.2.loadAll added.1.scopeText children with
        | mk outcome r' =>
          cases outcome with
          | error e => rfl
          | ok paths => simp only [setAttributesAt_of]
    | _ => exact load_datum_of r name scope _ _

/-- The same for elements one after the other; an error leaves those before it. -/
theorem loadAll_of (r : Registry) (scope : String) (es : List Markup.Element) :
    (of r.forest).loadAll scope es = ((r.loadAll scope es).1, of (r.loadAll scope es).2.forest) := by
  cases es with
  | nil => rfl
  | cons e es =>
    simp only [loadAll, Registry.loadAll, load_of r scope e]
    cases r.load scope e with
    | mk outcome r' =>
      cases outcome with
      | error err => rfl
      | ok p =>
        simp only [loadAll_of r' scope es]
        cases r'.loadAll scope es with
        | mk outcome r'' => cases outcome <;> rfl

end

/-! ## Names that mean an entry -/

theorem search_of (r : Registry) (relative : Path) (scope : List String) :
    (of r.forest).search relative scope = r.search relative scope := by
  induction scope with
  | nil => simp only [search, Registry.search, contains_of]
  | cons segment outer ih => simp only [search, Registry.search, contains_of, ih]

theorem resolve_of (r : Registry) (name scope : String) :
    (of r.forest).resolve name scope = r.resolve name scope := by
  by_cases hhead : name.toList.head? = some '/'
  · rw [resolve, Registry.resolve, if_pos hhead, if_pos hhead]
    cases Path.ofName name "/" with
    | error e => rfl
    | ok p => simp only [contains_of]
  · rw [resolve, Registry.resolve, if_neg hhead, if_neg hhead]
    cases Path.ofScope scope with
    | error e => rfl
    | ok p =>
      let segments := (Text.stripEndBy (· = '/') name.toList).splitOn '/'
      cases hfound : r.search (segments.map String.ofList) p.reverse <;>
        simp only [search_of, hfound, segments]

theorem contains_of_search {relative : Path} {scope : List String} {p : Path}
    (h : r.search relative scope = some p) : r.contains p = true := by
  induction scope with
  | nil =>
    rw [Registry.search] at h
    split at h
    · rename_i hcontains
      cases h
      exact hcontains
    · cases h
  | cons segment outer ih =>
    simp only [Registry.search] at h
    split at h
    · rename_i hcontains
      cases h
      exact hcontains
    · exact ih h

/-- A name that means an entry means one that is there. -/
theorem contains_of_resolve {name scope : String} {p : Path} (h : r.resolve name scope = .ok p) :
    r.contains p = true := by
  simp only [Registry.resolve] at h
  split at h
  · split at h
    · cases h
    · split at h
      · rename_i hcontains
        cases h
        exact hcontains
      · cases h
  · split at h
    · cases h
    · split at h
      · rename_i hfound
        cases h
        exact contains_of_search hfound
      · cases h

theorem exists_of_resolve {name scope : String} {p : Path} (h : r.resolve name scope = .ok p) :
    ∃ n, get? p r.forest = some n :=
  Option.isSome_iff_exists.1 (contains_of_resolve h)

theorem setAttribute_of (r : Registry) (name key text : String) :
    (of r.forest).setAttribute r.namespaceText name key text =
      match r.setAttribute name key text with
      | .error e => (.error e, of r.forest)
      | .ok r' => (.ok (), of r'.forest) := by
  simp only [setAttribute, Registry.setAttribute, resolve_of]
  by_cases hkey : key = kindKey
  · simp only [if_pos hkey]
  · simp only [if_neg hkey]
    cases hp : r.resolve name r.namespaceText with
    | error e => rfl
    | ok p =>
      obtain ⟨n, hn⟩ := exists_of_resolve hp
      have hput := put_of_update (fun n => Node.name_mapAttributes (Attributes.set key text) n)
        (fun n => Node.children_mapAttributes _ n) hn
      simp only [lookup?_of_get? hn]
      rw [← hput]
      cases n <;> rfl

theorem validate_of (r : Registry) (scope : String) :
    (of r.forest).validate r.namespaceText scope = r.validate scope := by
  simp only [validate, Registry.validate]
  cases Path.ofScope (if scope.toList.head? = some '/' then scope else r.namespaceText ++ scope) with
  | error e => rfl
  | ok p =>
    cases p with
    | nil => rfl
    | cons first rest =>
      cases hn : get? (first :: rest) r.forest with
      | none => simp only [lookup?_of_none hn, hn]
      | some n =>
        simp only [lookup?_of_get? hn, hn]
        cases n with
        | leaf _ _ datum => cases datum <;> rfl
        | branch => rfl

end Table

/-! ## Operations -/

/-- A step that gave the table of a registry's forest, as a step of the ledger. -/
theorem Ledger.onTable_of {α : Type} {r r' : Registry} (h : Changes r r')
    (outcome : Except Error α) :
    (Ledger.of r).onTable (outcome, Table.of r'.forest) = (errorOf outcome, Ledger.of r') := by
  obtain ⟨hname, hscopes, hsaved⟩ := h.keeps
  simp only [onTable, of, hname, hscopes, hsaved]

/-- Every operation on the ledger of a registry is the operation on the registry: it ends with the
    same error or none, and with the ledger of what the registry has become. -/
theorem Ledger.perform_of (r : Registry) (op : Operation) :
    (Ledger.of r).perform op = ((r.perform op).1, Ledger.of (r.perform op).2) := by
  have htable : (Ledger.of r).table = Table.of r.forest := rfl
  have hscope : (Ledger.of r).namespaceText = r.namespaceText := rfl
  cases op with
  | add name v =>
    simp only [perform, Registry.perform, add, htable, hscope, Table.addIn_of]
    cases h : r.addIn name r.namespaceText v with
    | error e => rfl
    | ok added => exact onTable_of (changes_addIn (p := added.1) h) (.ok added.1)
  | addIn name scope v =>
    simp only [perform, Registry.perform, htable, Table.addIn_of]
    cases h : r.addIn name scope v with
    | error e => rfl
    | ok added => exact onTable_of (changes_addIn (p := added.1) h) (.ok added.1)
  | assign assignment =>
    simp only [perform, Registry.perform, htable, hscope, Table.assign_of]
    cases h : r.assign assignment with
    | error e => rfl
    | ok added => exact onTable_of (changes_assign (p := added.1) h) (.ok added.1)
  | addMarkup text =>
    simp only [perform, Registry.perform, addMarkup, addMarkupIn, htable, hscope, Table.load_of]
    cases Markup.parseFirst text with
    | error f => rfl
    | ok e => exact onTable_of (changes_load r _ e) _
  | addMarkupIn text scope =>
    simp only [perform, Registry.perform, addMarkupIn, htable, Table.load_of]
    cases Markup.parseFirst text with
    | error f => rfl
    | ok e => exact onTable_of (changes_load r scope e) _
  | addAllMarkup text =>
    simp only [perform, Registry.perform, addAllMarkup, htable, hscope, Table.loadAll_of]
    cases Markup.parseAll text with
    | error f => rfl
    | ok es => exact onTable_of (changes_loadAll r _ es) _
  | setAttribute name key text =>
    simp only [perform, Registry.perform, htable, hscope, Table.setAttribute_of]
    cases h : r.setAttribute name key text with
    | error e => rfl
    | ok r' => exact onTable_of (changes_setAttribute h) (.ok ())
  | pushNamespace scope =>
    simp only [perform, Registry.perform, pushNamespace, htable, hscope, Table.validate_of]
    cases r.validate scope <;> rfl
  | popNamespace => rfl
  | saveState => rfl
  | restoreState =>
    simp only [perform, Registry.perform, restoreState]
    cases h : r.saved with
    | nil => simp [Ledger.of, h, orUnchanged]
    | cons forest saved => simp [Ledger.of, h, orUnchanged]

theorem Table.of_nil : Table.of [] = Table.empty :=
  Table.ext (fun p => by rw [Table.lookup?_of, entryAt, get?_nil_right]; rfl) rfl

theorem Ledger.of_empty (name : String) : Ledger.of (.empty name) = .empty name := by
  simp [Ledger.of, Registry.empty, Ledger.empty, Table.of_nil]

theorem Ledger.ofMarkup_of (name text : String) :
    Ledger.ofMarkup name text = (Registry.ofMarkup name text).map Ledger.of := by
  simp only [ofMarkup, Registry.ofMarkup]
  cases Markup.parseAll text with
  | error f => rfl
  | ok es =>
    have hscope : (Ledger.empty name).namespaceText = (Registry.empty name).namespaceText := rfl
    have hall := Table.loadAll_of (.empty name) (Registry.empty name).namespaceText (unwrap name es)
    have hkeeps := (changes_loadAll (.empty name) (Registry.empty name).namespaceText (unwrap name es)).keeps
    rw [show Table.of (Registry.empty name).forest = Table.empty from Table.of_nil] at hall
    simp only [hscope, hall]
    cases h : (Registry.empty name).loadAll (Registry.empty name).namespaceText (unwrap name es) with
    | mk outcome r =>
      rw [h] at hkeeps
      cases outcome with
      | error e => rfl
      | ok paths =>
        obtain ⟨hname, hscopes, hsaved⟩ : Keeps (.empty name) r := hkeeps
        simp [Except.map, of, empty, hname, hscopes, hsaved, Registry.empty]

/-- The ledgers that may be found are those of the registries that may be found. -/
theorem Ledger.reachable_iff {l : Ledger} :
    l.Reachable ↔ ∃ r, Registry.Reachable r ∧ l = .of r := by
  constructor
  · intro h
    induction h with
    | empty name => exact ⟨_, .empty name, (Ledger.of_empty name).symm⟩
    | @ofMarkup name text l h =>
      rw [Ledger.ofMarkup_of] at h
      cases hr : Registry.ofMarkup name text with
      | error e =>
        rw [hr] at h
        cases h
      | ok r =>
        rw [hr] at h
        cases h
        exact ⟨r, .ofMarkup hr, rfl⟩
    | @perform l _ op ih =>
      obtain ⟨r, hr, rfl⟩ := ih
      exact ⟨_, hr.perform op, by rw [Ledger.perform_of]⟩
  · rintro ⟨r, hr, rfl⟩
    induction hr with
    | empty name =>
      rw [Ledger.of_empty]
      exact .empty name
    | @ofMarkup name text r h =>
      have hof : Ledger.ofMarkup name text = .ok (.of r) := by
        rw [Ledger.ofMarkup_of, h]
        rfl
      exact .ofMarkup hof
    | @perform r _ op ih =>
      have h := ih.perform op
      rwa [Ledger.perform_of] at h

end Lockstep.Registry
