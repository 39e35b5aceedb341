import Lockstep.Proofs.Registry.Nesting
import Lockstep.Proofs.Registry.Reread

/- What is read back of any registry.

   1. `SameOutline` is what two registries have in common that differ in their data only: the names, and
      the kind, the attributes and the children at each. Rereading a forest keeps all of it
      (`sameOutline_of_reread`).
   2. Whatever its values and its attributes are, a reachable registry is read back with the same outline
      if its keys can be names and no name has more segments than elements may be nested; a longer
      one makes the parser refuse the text (`outline_read_back`).
   3. Neither condition is checked when an entry is added or an attribute is set
      (`read_back_fails`). -/
namespace Lockstep.Registry
open Markup Forest

/-! ## Rereading keeps the outline -/

theorem map_name_reread (f : Forest) : (Forest.reread f).map Node.name = f.map Node.name := by
  induction f with
  | nil => rfl
  | cons n f ih => rw [Forest.reread, List.map_cons, List.map_cons, Node.name_reread, ih]

theorem children_reread (n : Node) : n.reread.children = Forest.reread n.children := by
  cases n <;> rfl

theorem attributes_reread (n : Node) : n.reread.attributes = n.attributes := by
  cases n <;> rfl

theorem kind_reread (n : Node) : n.reread.value.kind = n.value.kind := by
  cases n with
  | leaf name attributes datum => exact datum.kind_reread _
  | branch name attributes children => rfl

theorem childNames_reread (n : Node) : childNames n.reread.value = childNames n.value := by
  cases n with
  | leaf name attributes datum => rfl
  | branch name attributes children => exact map_name_reread children

theorem child?_reread (name : String) (f : Forest) :
    child? name (Forest.reread f) = (child? name f).map Node.reread := by
  induction f with
  | nil => rfl
  | cons n f ih =>
    simp only [child?] at ih
    by_cases hn : n.name = name <;> simp [Forest.reread, child?, hn, ih]

theorem get?_reread (p : Path) (f : Forest) :
    get? p (Forest.reread f) = (get? p f).map Node.reread := by
  induction p generalizing f with
  | nil => rfl
  | cons name rest ih =>
    cases rest with
    | nil => exact child?_reread name f
    | cons next rest =>
      rw [get?, get?, child?_reread]
      cases child? name f with
      | none => rfl
      | some n =>
        simp only [Option.map_some, Option.bind_some, children_reread]
        exact ih n.children

mutual

theorem Node.listing_reread (n : Node) (above : Path) :
    n.reread.listing above = (n.listing above).map fun found => (found.1, found.2.reread) := by
  cases n with
  | leaf name attributes datum => rfl
  | branch name attributes children =>
    simp only [Node.reread, Node.listing, List.map_cons, Forest.listing_reread children]

theorem Forest.listing_reread (f : Forest) (above : Path) :
    Forest.listing above (Forest.reread f) =
      (Forest.listing above f).map fun found => (found.1, found.2.reread) := by
  cases f with
  | nil => rfl
  | cons n f =>
    simp only [Forest.reread, Forest.listing, List.map_append, n.listing_reread,
      Forest.listing_reread f]

end

/-- Two entries that may differ in their data only. -/
structure Entry.Alike (e e' : Entry) : Prop where
  kind : e'.value.kind = e.value.kind
  attributes : e'.attributes = e.attributes
  children : childNames e'.value = childNames e.value

theorem alike_reread (n : Node) : n.entry.Alike n.reread.entry :=
  ⟨kind_reread n, attributes_reread n, childNames_reread n⟩

/-- Two registries that may differ in the data of their entries only. -/
structure SameOutline (r r' : Registry) : Prop where
  names : r'.names = r.names
  entries : ∀ {p e}, r.entry? p = some e → ∃ e', r'.entry? p = some e' ∧ e.Alike e'
  roots : r'.roots = r.roots

/-- The names of a registry are the texts of its paths, in order. -/
theorem names_eq_mergeSort (r : Registry) :
    r.names = ((Forest.listing [] r.forest).map fun found => Path.text found.1).mergeSort
      fun a b => !decide (b < a) := by
  rw [names, sorted, List.map_mergeSort (s := fun a b => !decide (b < a)) fun _ _ _ _ => rfl,
    List.map_map]
  rfl

theorem sameOutline_of_reread {r r' : Registry} (h : r'.forest = Forest.reread r.forest) :
    SameOutline r r' := by
  refine ⟨?_, fun {p e} he => ?_, ?_⟩
  · rw [names_eq_mergeSort, names_eq_mergeSort, h, Forest.listing_reread, List.map_map]
    rfl
  · obtain ⟨n, hn, rfl⟩ := Option.map_eq_some_iff.1 he
    refine ⟨n.reread.entry, ?_, alike_reread n⟩
    unfold entry?
    rw [h, get?_reread, hn]
    rfl
  · rw [roots, roots, h, map_name_reread]

/-! ## Reading back -/

/-- The text of a forest that is not too high is loaded as the forest, its data reread. -/
theorem exists_addAllMarkup_renderRoots {r : Registry} (hr : Forest.Tidy r.forest)
    (hkeys : Forest.Keyed r.forest) (hd : Forest.height r.forest ≤ maxDepth) (name : String) :
    ∃ es ps, parseAll r.renderRoots = .ok es ∧ (empty name).addAllMarkup r.renderRoots =
      (.ok ps, { empty name with forest := Forest.reread r.forest }) := by
  obtain ⟨es, hparse, hsaid⟩ := exists_parseAll_renderRoots hr hkeys hd
  obtain ⟨ps, hload⟩ := loadAll_empty hr hsaid name
  exact ⟨es, ps, hparse, by simp only [addAllMarkup, hparse, hload]⟩

/-- A reachable registry whose keys can be names is read back from the text of its top-level entries, into
    an empty registry of any name: all names come back, with the same kind, the same attributes and the
    same children, if none has more segments than elements may be nested. If one has, the text
    is refused for that, and nothing is added. -/
theorem outline_read_back {r : Registry} (hr : Reachable r)
    (hkeys : ∀ {p e}, r.entry? p = some e → NamedKeys e.attributes) (name : String) :
    ((∀ {p e}, r.entry? p = some e → p.length ≤ maxDepth) →
      (∃ es, parseAll r.renderRoots = .ok es) ∧
        ∃ ps r', (empty name).addAllMarkup r.renderRoots = (.ok ps, r') ∧ SameOutline r r') ∧
      ∀ {p e}, r.entry? p = some e → maxDepth < p.length →
        ∃ offset, parseAll r.renderRoots = .error ⟨offset, .tooDeep⟩ ∧
          (empty name).addAllMarkup r.renderRoots =
            (.error (.markup ⟨offset, .tooDeep⟩), empty name) := by
  have htidy := (tidy_of_reachable hr).forest
  have hkeyed := keyed_of_entries htidy hkeys
  constructor
  · intro hdepth
    obtain ⟨es, ps, hparse, hload⟩ :=
      exists_addAllMarkup_renderRoots htidy hkeyed (height_le_of_entries htidy hdepth) name
    exact ⟨⟨es, hparse⟩, ps, _, hload, sameOutline_of_reread rfl⟩
  · intro p e he hlong
    obtain ⟨offset, hparse⟩ := parseAll_renderRoots_tooDeep htidy hkeyed
      (Nat.lt_of_lt_of_le hlong (length_le_of_entry he))
    exact ⟨offset, hparse, by simp only [addAllMarkup, hparse]⟩

/-! ## What is admitted and cannot be read back -/

/-- A path of levels that are all called the same. -/
def ladder (levels : Nat) : Path := List.replicate levels "a"

theorem wellFormed_ladder (levels : Nat) : (ladder levels).WellFormed := by
  intro segment hsegment
  rw [List.eq_of_mem_replicate hsegment]
  decide

theorem height_chain (v : Value) (name : String) (rest : Path) :
    (Node.chain v name rest).height = rest.length + 1 := by
  induction rest generalizing name with
  | nil => cases v <;> rfl
  | cons next rest ih =>
    rw [Node.chain, Node.height, Forest.height, Forest.height, ih, Nat.max_zero]
    rfl

/-- What is added on the way to a new name has no attributes yet, and neither has the name. -/
theorem attributes_of_mem_chain {v : Value} {name : String} {rest above : Path}
    {found : Path × Node} (h : found ∈ (Node.chain v name rest).listing above) :
    found.2.attributes = [] := by
  induction rest generalizing name above with
  | nil =>
    cases v <;> obtain rfl := List.mem_singleton.1 h <;> rfl
  | cons next rest ih =>
    rcases List.mem_cons.1 h with rfl | h
    · rfl
    · rw [Forest.listing, Forest.listing, List.append_nil] at h
      exact ih h

theorem keyed_chain (v : Value) (name : String) (rest : Path) :
    Forest.Keyed [Node.chain v name rest] := by
  intro found hfound
  rw [Forest.listing, Forest.listing, List.append_nil] at hfound
  rw [attributes_of_mem_chain hfound]
  exact nofun

/-- In an empty registry, a name is added with all that is missing above it. -/
theorem add_empty {v : Value} (hv : childNames v = []) {name : String} {rest : Path}
    (hp : Path.WellFormed (name :: rest)) (index : String) :
    (empty index).add (Path.text (name :: rest)) v =
      .ok (name :: rest, { empty index with forest := [Node.chain v name rest] }) := by
  have hname := Path.ofName_text (List.cons_ne_nil name rest) hp (empty index).namespaceText
  have habsent : Forest.get? (name :: rest) (empty index).forest = none := get?_nil_right _
  simp only [add, addIn, hname, addAt, hv, checkChildren, habsent]
  rw [show (empty index).forest = [] from rfl, plant_nil]

/-- An attribute whose key has a blank in it. -/
def misnamed : Registry :=
  (empty "index").after [.add "/a" (.datum (.int 1)), .setAttribute "/a" "bad key" "v"]

/-- A number with a number of levels above it. -/
def towering (levels : Nat) : Registry :=
  (empty "index").after [.add (ladder (levels + 1)).text (.datum (.int 1))]

theorem forest_towering (levels : Nat) :
    (towering levels).forest = [Node.chain (.datum (.int 1)) "a" (ladder levels)] := by
  have hadd : (empty "index").add (ladder (levels + 1)).text (.datum (.int 1)) =
      .ok (ladder (levels + 1), _) := add_empty rfl (wellFormed_ladder (levels + 1)) "index"
  rw [towering, after_cons, after_nil, perform, hadd]
  rfl

theorem reachable_towering (levels : Nat) : Reachable (towering levels) :=
  (Reachable.empty "index").after _

theorem tidy_towering (levels : Nat) : Forest.Tidy (towering levels).forest :=
  (tidy_of_reachable (reachable_towering levels)).forest

theorem keyed_towering (levels : Nat) : Forest.Keyed (towering levels).forest := by
  rw [forest_towering]
  exact keyed_chain _ _ _

theorem height_towering (levels : Nat) : Forest.height (towering levels).forest = levels + 1 := by
  rw [forest_towering, Forest.height, height_chain, ladder, List.length_replicate]
  exact Nat.max_eq_left (Nat.zero_le _)

theorem exists_entry_towering (levels : Nat) :
    ∃ e, Registry.entry? (towering levels) (ladder (levels + 1)) = some e := by
  obtain ⟨leaf, hn⟩ := get?_chain (.datum (.int 1)) "a" (ladder levels)
  refine ⟨(Node.fresh leaf (.datum (.int 1))).entry, ?_⟩
  unfold entry?
  rw [forest_towering]
  exact congrArg (Option.map Node.entry) hn

theorem parseAll_towering {levels : Nat} (h : maxDepth ≤ levels) :
    ∃ offset, parseAll (towering levels).renderRoots = .error ⟨offset, .tooDeep⟩ := by
  refine parseAll_renderRoots_tooDeep (tidy_towering levels) (keyed_towering levels) ?_
  rw [height_towering]
  exact Nat.lt_succ_of_le h

/-- What gives nothing ends in an error. -/
theorem exists_error_of_isNone {ε α : Type} {outcome : Except ε α}
    (h : outcome.toOption.isNone = true) : ∃ e, outcome = .error e := by
  cases outcome with
  | error e => exact ⟨e, rfl⟩
  | ok a => cases h

/-- Neither is refused when it is made, and the text of neither can be read. -/
theorem read_back_fails :
    (Reachable misnamed ∧ misnamed.attribute? "/a" "bad key" = some "v" ∧
      ∃ f, parseAll misnamed.renderRoots = .error f) ∧
    Reachable (towering 256) ∧ (∃ e, Registry.entry? (towering 256) (ladder 257) = some e) ∧
      ∃ offset, parseAll (towering 256).renderRoots = .error ⟨offset, .tooDeep⟩ := by
  refine ⟨⟨(Reachable.empty "index").after _, by decide +kernel, ?_⟩, reachable_towering 256,
    exists_entry_towering 256, parseAll_towering (Nat.le_refl maxDepth)⟩
  exact exists_error_of_isNone (by decide +kernel)

/-! ## A registry of data that are not read back -/

/-- No number, numbers parted by one of their digits, and texts parted by what escapes them, each with an
    attribute that has to be escaped. -/
def illegible : Registry := (empty "index").after
  [.add "/zone/mass" (.datum (.float ⟨0x7fc00000⟩)),
    .setAttribute "/zone/mass" "\"unit\"" "</zone> & \"<m>\"",
    .add "/zone/counts" (.datum (.ints [11, 21])),
    .setAttribute "/zone/counts" "separator" "1",
    .add "/labels" (.datum (.texts ["a", "b"])),
    .setAttribute "/labels" "separator" "\\",
    .add "/zone/none" (.container [])]

theorem outline_read_back_illegible :
    (illegible.size = 5 ∧ ∃ ps r', (empty "copy").addAllMarkup illegible.renderRoots = (.ok ps, r') ∧
      SameOutline illegible r') ∧
    ∃ offset, (empty "copy").addAllMarkup (towering 256).renderRoots =
      (.error (.markup ⟨offset, .tooDeep⟩), empty "copy") := by
  constructor
  · have hlisted : ∀ found ∈ Forest.listing [] illegible.forest,
        found.1.length ≤ 2 ∧ NamedKeys found.2.attributes := by decide +kernel
    have hkeys : ∀ {p e}, illegible.entry? p = some e → NamedKeys e.attributes := by
      intro p e he
      obtain ⟨n, hn, rfl⟩ := exists_mem_listing he
      exact (hlisted _ hn).2
    have hdepth : ∀ {p e}, illegible.entry? p = some e → p.length ≤ maxDepth := by
      intro p e he
      obtain ⟨n, hn, -⟩ := exists_mem_listing he
      exact Nat.le_trans (hlisted _ hn).1 (by decide)
    have hreachable : Reachable illegible := (Reachable.empty "index").after _
    exact ⟨by decide +kernel, ((outline_read_back hreachable hkeys "copy").1 hdepth).2⟩
  · have hkeys : ∀ {p e}, Registry.entry? (towering 256) p = some e → NamedKeys e.attributes := by
      intro p e he
      obtain ⟨n, hn, rfl⟩ := exists_mem_listing he
      exact keyed_towering 256 _ hn
    obtain ⟨e, he⟩ := exists_entry_towering 256
    have hlong : maxDepth < (ladder 257).length := by
      rw [ladder, List.length_replicate]
      exact Nat.lt_add_one maxDepth
    obtain ⟨offset, -, hrefused⟩ := (outline_read_back (reachable_towering 256) hkeys "copy").2 he hlong
    exact ⟨offset, hrefused⟩

end Lockstep.Registry
