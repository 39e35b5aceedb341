import Lockstep.Proofs.Markup.Readable
import Lockstep.Proofs.Registry.Nesting
import Lockstep.Proofs.Registry.Placing
import Lockstep.Proofs.Registry.Spelling

/- How much loading adds.

   1. A registry is `Writable` when its markup can be parsed: no name has more segments than elements may
      be nested, and every key can be written. Adding a name that is no longer, and setting attributes with
      such keys, keeps it writable (`Writable.addIn`, `Writable.setAttributesAt`).
   2. The name of an element is one segment at most below its namespace (`length_le_of_ofName`). So loading
      elements that were read keeps a registry writable, whatever it ends with (`Writable.load`), and every
      registry read from markup is writable (`writable_ofMarkup`). -/
namespace Lockstep.Registry
open Text Markup

/-- A registry whose markup can be parsed. -/
structure Writable (r : Registry) : Prop where
  entries : ∀ {p e}, r.entry? p = some e → p.length ≤ maxDepth ∧ NamedKeys e.attributes

section
variable {r r' : Registry} {p q : Path} {v : Value} {name scope : String} {e : Entry}

theorem Writable.keyed (h : r.Writable) (hr : Forest.Tidy r.forest) : Forest.Keyed r.forest :=
  keyed_of_entries hr fun he => (h.entries he).2

theorem Writable.height_le (h : r.Writable) (hr : Forest.Tidy r.forest) :
    Forest.height r.forest ≤ maxDepth :=
  height_le_of_entries hr fun he => (h.entries he).1

/-! ## Changes -/

/-- Once a value was placed, an entry has the attributes that it had, or it is new on the way there and has
    none. -/
theorem Table.Placed.attributes_cases {t t' : Table} (h : t.Placed p v t') (hq : q ≠ [])
    (he : t'.lookup? q = some e) :
    (∃ held, t.lookup? q = some held ∧ e.attributes = held.attributes) ∨
      q <+: p ∧ e.attributes = [] := by
  by_cases hself : q = p
  · subst hself
    cases hheld : t.lookup? q with
    | none =>
      cases he.symm.trans (h.created hheld)
      exact .inr ⟨List.prefix_rfl, rfl⟩
    | some held =>
      cases he.symm.trans (h.held hheld).2
      exact .inl ⟨held, rfl, rfl⟩
  by_cases hway : ∃ next, q ++ [next] <+: p ∧ t.lookup? (q ++ [next]) = none
  · obtain ⟨next, hnext, hmissing⟩ := hway
    cases hheld : t.lookup? q with
    | none =>
      cases he.symm.trans (h.missing hq hnext hheld)
      exact .inr ⟨(List.prefix_append q [next]).trans hnext, rfl⟩
    | some held =>
      obtain ⟨names, -, hentry⟩ := h.last hnext hheld hmissing
      cases he.symm.trans hentry
      exact .inl ⟨held, rfl, rfl⟩
  · refine .inl ⟨e, ?_, rfl⟩
    rw [← he, h.others hself fun next hnext => ?_]
    exact Classical.byContradiction fun hmissing =>
      hway ⟨next, hnext, Table.not_contains_iff.1 hmissing⟩

theorem ne_nil_of_entry (he : r.entry? p = some e) : p ≠ [] := by
  rintro rfl
  cases he

theorem Writable.addIn (h : r.Writable) (hr : Forest.Tidy r.forest)
    (hadd : r.addIn name scope v = .ok (p, r')) (hp : p.length ≤ maxDepth) : r'.Writable := by
  have hplaced := placed_of_linked (Table.sound_of hr).linked hadd
  refine ⟨fun {q e} he => ?_⟩
  obtain ⟨held, hheld, hattributes⟩ | ⟨habove, hattributes⟩ :=
    hplaced.attributes_cases (ne_nil_of_entry he) he
  · rw [hattributes]
    exact h.entries hheld
  · rw [hattributes]
    exact ⟨Nat.le_trans habove.length_le hp, nofun⟩

theorem Writable.setAttributesAt (h : r.Writable) {pairs : Attributes} (hpairs : NamedKeys pairs)
    (p : Path) : (r.setAttributesAt p pairs).Writable := by
  refine ⟨fun {q e} he => ?_⟩
  have hentry := Forest.entryAt_update (g := Node.mapAttributes (Attributes.setAll · pairs))
    (Node.name_mapAttributes _) (Node.children_mapAttributes _) p q r.forest
  rw [show Registry.entry? (r.setAttributesAt p pairs) q = _ from hentry] at he
  split at he
  · rename_i hq
    obtain ⟨n, hn, rfl⟩ := Option.map_eq_some_iff.1 he
    have hheld : r.entry? q = some n.entry := hq ▸ entry?_of_get? hn
    have hattributes : (n.mapAttributes (Attributes.setAll · pairs)).entry.attributes =
        n.attributes.setAll pairs := by cases n <;> rfl
    rw [hattributes]
    exact ⟨(h.entries hheld).1, (h.entries hheld).2.setAll hpairs⟩
  · exact h.entries he

/-! ## Names of elements -/

theorem length_relativePath (h : '/' ∉ name.toList) : (relativePath name).length = 1 := by
  obtain ⟨more, hsplit, -⟩ := exists_stripEndBy (fun c => decide (c = '/')) name.toList
  have hcut : '/' ∉ stripEndBy (· = '/') name.toList := fun hmem =>
    h (hsplit ▸ List.mem_append_left more hmem)
  rw [relativePath, List.splitOn_eq_singleton hcut]
  rfl

/-- A name without a slash is read as one segment at most below its namespace. -/
theorem length_le_of_ofName {s : Path} (hs : s.WellFormed) (hslash : '/' ∉ name.toList)
    (hname : Path.ofName name s.scopeText = .ok p) : p.length ≤ s.length + 1 := by
  obtain ⟨before, after, hsplit, -⟩ := exists_stripBy isBlank name.toList
  have htoList : (trim name).toList = stripBy isBlank name.toList := String.toList_ofList
  have htrimmed : '/' ∉ (trim name).toList := by
    rw [htoList]
    exact fun hmem => hslash (hsplit ▸ List.mem_append_left after (List.mem_append_right before hmem))
  rw [← Path.ofName_trim] at hname
  by_cases hne : (trim name).toList = []
  · rw [String.toList_eq_nil_iff.1 hne] at hname
    rw [Path.eq_of_ofName_empty hs hname]
    exact Nat.le_succ _
  · have hhead : (trim name).toList.head? ≠ some '/' := fun hhead =>
      htrimmed (List.mem_of_mem_head? hhead)
    have htight : stripBy isBlank (trim name).toList = (trim name).toList := by
      rw [htoList, stripBy_stripBy]
    obtain ⟨rfl, -⟩ := (Path.ofName_relative_iff (Path.ofScope_scopeText hs) hhead hne htight).1 hname
    exact Nat.le_of_eq (by rw [List.length_append, length_relativePath htrimmed])

theorem namedKeys_keptAttributes {attributes : Attributes} (h : NamedKeys attributes) :
    NamedKeys (keptAttributes attributes) :=
  fun pair hpair => h pair (List.mem_filter.1 hpair).1

theorem not_mem_slash_of_isName {cs : List Char} (h : IsName cs) : '/' ∉ cs := fun hmem =>
  absurd (h.2 '/' hmem) (by decide)

/-- An element with room for it is placed where there is room. -/
theorem length_le_of_readable {s : Path} (hs : s.WellFormed) (hroom : s.length < maxDepth)
    (hname : IsName name.toList) (hp : Path.ofName name s.scopeText = .ok p) : p.length ≤ maxDepth :=
  Nat.le_trans (length_le_of_ofName hs (not_mem_slash_of_isName hname) hp) hroom

/-! ## Loading -/

theorem Writable.load_datum {s : Path} (h : r.Writable) (hr : Tidy r) (hs : s.WellFormed)
    (hroom : s.length < maxDepth) (hname : IsName name.toList) {attributes : Attributes}
    (hkeys : NamedKeys attributes) (v : Value) :
    Writable (match r.addIn name s.scopeText v with
      | .error e => (.error e, r)
      | .ok (p, r') => (.ok p, r'.setAttributesAt p (keptAttributes attributes)) :
        Except Error Path × Registry).2 := by
  cases hadd : r.addIn name s.scopeText v with
  | error err => exact h
  | ok added =>
    obtain ⟨p, r'⟩ := added
    have hp := length_le_of_readable hs hroom hname (addIn_eq_ok.1 hadd).1
    exact (h.addIn hr.forest hadd hp).setAttributesAt (namedKeys_keptAttributes hkeys) p

end

mutual

/-- Loading an element that was read keeps a registry writable, whatever it ends with. -/
theorem Writable.load (e : Element) {r : Registry} {s : Path} (h : r.Writable) (hr : Tidy r)
    (hs : s.WellFormed) (he : e.Readable s.length) : (r.load s.scopeText e).2.Writable := by
  obtain ⟨name, attributes, text, children, bodyStart, bodyEnd⟩ := e
  obtain ⟨hroom, hname, hkeys, hchildren⟩ := he
  simp only [Registry.load]
  cases elementKind attributes text children with
  | error err => exact h
  | ok kind =>
    cases kind with
    | container =>
      cases hadd : r.addIn name s.scopeText (.container []) with
      | error err => exact h
      | ok added =>
        obtain ⟨p, r'⟩ := added
        have hp := (addIn_eq_ok.1 hadd).1
        have hplaced := h.addIn hr.forest hadd (length_le_of_readable hs hroom hname hp)
        have hlength := length_le_of_ofName hs (not_mem_slash_of_isName hname) hp
        have hall := Writable.loadAll children hplaced (hr.changes (changes_addIn hadd))
          (Path.wellFormed_of_ofName hp) (hchildren.mono hlength)
        simp only
        cases hload : r'.loadAll p.scopeText children with
        | mk outcome r'' =>
          rw [hload] at hall
          cases outcome with
          | error err => exact hall
          | ok paths => exact hall.setAttributesAt (namedKeys_keptAttributes hkeys) p
    | _ => exact h.load_datum hr hs hroom hname hkeys _

/-- So does loading elements one after the other. -/
theorem Writable.loadAll (es : List Element) {r : Registry} {s : Path} (h : r.Writable) (hr : Tidy r)
    (hs : s.WellFormed) (hes : Element.ReadableAll s.length es) :
    (r.loadAll s.scopeText es).2.Writable := by
  cases es with
  | nil => exact h
  | cons e es =>
    have hone := Writable.load e h hr hs hes.1
    have htidy := hr.changes (changes_load r s.scopeText e)
    simp only [Registry.loadAll]
    cases hload : r.load s.scopeText e with
    | mk outcome r' =>
      rw [hload] at hone htidy
      cases outcome with
      | error err => exact hone
      | ok p =>
        have hall := Writable.loadAll es hone htidy hs hes.2
        simp only
        cases hloads : r'.loadAll s.scopeText es with
        | mk outcome r'' =>
          rw [hloads] at hall
          cases outcome <;> exact hall

end

/-! ## Whole texts -/

theorem writable_empty (name : String) : (empty name).Writable := by
  refine ⟨fun {p e} he => ?_⟩
  have hnone : Registry.entry? (empty name) p = none :=
    congrArg (Option.map Node.entry) (Forest.get?_nil_right p)
  cases hnone.symm.trans he

/-- Elements in a wrapping that was read can be read as well. -/
theorem readableAll_unwrap {es : List Element} (h : Element.ReadableAll 0 es) (name : String) :
    Element.ReadableAll 0 (unwrap name es) := by
  unfold unwrap
  split
  · split
    · rename_i e _
      obtain ⟨ename, attributes, text, children, bodyStart, bodyEnd⟩ := e
      exact Element.ReadableAll.mono h.1.2.2.2 (Nat.zero_le 1)
    · exact h
  · exact h

/-- A registry that was read from markup can be written as markup, and read again. -/
theorem writable_ofMarkup {name text : String} {r : Registry} (h : ofMarkup name text = .ok r) :
    r.Writable := by
  unfold ofMarkup at h
  split at h
  · cases h
  · rename_i es hparse
    have hall := Writable.loadAll (s := []) (unwrap name es) (writable_empty name) (tidy_empty name)
      (by simp [Path.WellFormed]) (readableAll_unwrap (readableAll_of_parseAll hparse) name)
    split at h
    · cases h
    · rename_i hload
      rw [show (empty name).namespaceText = Path.scopeText [] from rfl] at hload
      rw [hload] at hall
      cases h
      exact hall

end Lockstep.Registry
