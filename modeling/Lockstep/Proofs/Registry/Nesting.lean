import Lockstep.Proofs.Markup.Nesting
import Lockstep.Proofs.Registry.Invariant
import Lockstep.Proofs.Registry.Markup

/- How deep the markup of a registry is nested.

   1. The height of a forest bounds the lengths of its paths, and they reach it (`Forest.length_le`,
      `Forest.height_le`).
   2. `Forest.Keyed`: every key can be a name. The markup of such a forest is parsed as long as it is not
      higher than elements may be nested (`exists_readAll_chars`), and is refused as nested too
      deeply otherwise (`readAll_tooDeep`).
   3. So the text of the top-level entries of a registry is parsed into elements that say them, or is
      refused (`exists_parseAll_renderRoots`, `parseAll_renderRoots_tooDeep`). -/
namespace Lockstep.Registry
open Text Markup Forest

/-! ## Heights and paths -/

theorem Node.height_eq (n : Node) : n.height = Forest.height n.children + 1 := by
  cases n <;> rfl

mutual

theorem Node.length_le (n : Node) {above : Path} {found : Path × Node}
    (h : found ∈ n.listing above) : found.1.length ≤ above.length + n.height := by
  cases n with
  | leaf name attributes datum =>
    obtain rfl := List.mem_singleton.1 h
    exact Nat.le_of_eq List.length_append
  | branch name attributes children =>
    rcases List.mem_cons.1 h with rfl | h
    · rw [List.length_append, Node.height]
      exact Nat.add_le_add_left (Nat.le_add_left 1 _) _
    · have hbelow := Forest.length_le children h
      rw [List.length_append, List.length_singleton] at hbelow
      rw [Node.height]
      omega

/-- No path is longer than the forest is high. -/
theorem Forest.length_le (f : Forest) {above : Path} {found : Path × Node}
    (h : found ∈ Forest.listing above f) : found.1.length ≤ above.length + Forest.height f := by
  cases f with
  | nil => cases h
  | cons n f =>
    rw [Forest.height]
    rcases List.mem_append.1 h with h | h
    · exact Nat.le_trans (n.length_le h) (Nat.add_le_add_left (Nat.le_max_left ..) _)
    · exact Nat.le_trans (Forest.length_le f h) (Nat.add_le_add_left (Nat.le_max_right ..) _)

end

mutual

theorem Node.height_le (n : Node) {above : Path} {k : Nat} (hk : 1 ≤ k)
    (h : ∀ found ∈ Forest.listing (above ++ [n.name]) n.children,
      found.1.length ≤ above.length + k) : n.height ≤ k := by
  cases n with
  | leaf name attributes datum => exact hk
  | branch name attributes children =>
    have hbelow : ∀ found ∈ Forest.listing (above ++ [name]) children,
        found.1.length ≤ (above ++ [name]).length + (k - 1) := by
      intro found hfound
      have hlength := h found hfound
      rw [List.length_append, List.length_singleton]
      omega
    have hheight := Forest.height_le children hbelow
    rw [Node.height]
    omega

/-- A forest is no higher than its longest path is long. -/
theorem Forest.height_le (f : Forest) {above : Path} {k : Nat}
    (h : ∀ found ∈ Forest.listing above f, found.1.length ≤ above.length + k) :
    Forest.height f ≤ k := by
  cases f with
  | nil => exact Nat.zero_le k
  | cons n f =>
    obtain ⟨hself, hbelow, hrest⟩ := Forest.forall_mem_listing_cons h
    rw [List.length_append, List.length_singleton] at hself
    exact Nat.max_le.2 ⟨n.height_le (Nat.le_of_add_le_add_left hself) hbelow, Forest.height_le f hrest⟩

end

mutual

theorem Node.listing_append (n : Node) (above front : Path) :
    n.listing (above ++ front) =
      (n.listing front).map fun found => (above ++ found.1, found.2) := by
  cases n with
  | leaf name attributes datum => simp only [Node.listing, List.map_cons, List.map_nil, List.append_assoc]
  | branch name attributes children =>
    have hbelow := Forest.listing_append children above (front ++ [name])
    simp only [Node.listing, List.map_cons, List.append_assoc] at hbelow ⊢
    rw [hbelow]

/-- What is listed under a longer path is what is listed under its end, with the front added. -/
theorem Forest.listing_append (f : Forest) (above front : Path) :
    Forest.listing (above ++ front) f =
      (Forest.listing front f).map fun found => (above ++ found.1, found.2) := by
  cases f with
  | nil => rfl
  | cons n f =>
    simp only [Forest.listing, List.map_append, n.listing_append, Forest.listing_append f]

end

/-! ## Keys -/

/-- A forest whose keys can all be written in tags. -/
def Forest.Keyed (f : Forest) : Prop := ∀ found ∈ Forest.listing [] f, NamedKeys found.2.attributes

namespace Forest.Keyed
variable {f : Forest} {n : Node}

theorem of_cons (h : Forest.Keyed (n :: f)) :
    NamedKeys n.attributes ∧ Forest.Keyed n.children ∧ Forest.Keyed f := by
  obtain ⟨hself, hbelow, hrest⟩ := Forest.forall_mem_listing_cons h
  refine ⟨hself, fun found hfound => ?_, hrest⟩
  refine hbelow ([n.name] ++ found.1, found.2) ?_
  rw [show [] ++ [n.name] = [n.name] ++ [] from rfl, Forest.listing_append]
  exact List.mem_map_of_mem hfound

/-- Where there is room for it, a forest of such keys has its place in markup. -/
theorem placed (h : Forest.Keyed f) {above : Path}
    (hd : above.length + Forest.height f < maxDepth) :
    ∀ found ∈ Forest.listing above f, Placed found := by
  intro found hfound
  refine ⟨Nat.lt_of_le_of_lt (Forest.length_le f hfound) hd, ?_⟩
  rw [← List.append_nil above, Forest.listing_append] at hfound
  obtain ⟨listed, hlisted, rfl⟩ := List.mem_map.1 hfound
  exact h listed hlisted

end Forest.Keyed

theorem NamedKeys.set {key : String} {attributes : Attributes} (h : NamedKeys attributes)
    (hkey : IsName key.toList) (text : String) : NamedKeys (attributes.set key text) := by
  intro pair hpair
  have hmem : pair.1 ∈ (attributes.set key text).map Prod.fst := List.mem_map_of_mem hpair
  have hheld : pair.1 ∈ attributes.map Prod.fst → IsName pair.1.toList := by
    intro hmem
    obtain ⟨held, hin, hfst⟩ := List.mem_map.1 hmem
    rw [← hfst]
    exact h held hin
  rw [keys_set] at hmem
  split at hmem
  · exact hheld hmem
  · rcases List.mem_append.1 hmem with hmem | hmem
    · exact hheld hmem
    · rw [List.mem_singleton.1 hmem]
      exact hkey

theorem NamedKeys.setAll {attributes pairs : Attributes} (h : NamedKeys attributes)
    (hpairs : NamedKeys pairs) : NamedKeys (attributes.setAll pairs) := by
  induction pairs generalizing attributes with
  | nil => exact h
  | cons pair rest ih =>
    exact ih (h.set (hpairs pair List.mem_cons_self) pair.2)
      fun other hother => hpairs other (List.mem_cons_of_mem pair hother)

/-! ## Room for nodes -/

theorem exists_element_of_height {n : Node} (depth pos : Nat) (ht : n.Tidy)
    (hkeys : NamedKeys n.attributes) (hbelow : Forest.Keyed n.children)
    (hd : depth + n.height ≤ maxDepth) : ∃ e, IsElement depth pos n.chars e ∧ n.SaidBy e := by
  have hlength : (List.replicate depth "").length = depth := List.length_replicate
  have hroom : (List.replicate depth "").length + Forest.height n.children < maxDepth := by
    rw [n.height_eq] at hd
    rw [hlength]
    omega
  exact exists_element_chars n depth pos ht hkeys (hbelow.placed hroom) (Nat.le_of_eq hlength.symm)

theorem upcoming_chars {n : Node} (h : n.Tidy) (rest : List Char) :
    upcoming (n.chars ++ rest) = .opening := by
  obtain ⟨c, tail, hchars, hslash, hbang, -⟩ := exists_chars_cons h
  rw [hchars]
  exact upcoming_cons_cons hslash hbang _

/-- The tag of an entry with entries below it opens an element. -/
theorem upcoming_openingChars {name : String} (hname : isSegment name.toList = true) (kind : Kind)
    (attributes : Attributes) : upcoming (openingChars name kind attributes) = .opening := by
  obtain ⟨c, tail, hchars, hslash, hbang, -⟩ := exists_openingChars hname kind attributes
  rw [hchars]
  exact upcoming_cons_cons hslash hbang _

mutual

/-- Where there is no room for it, a node is refused. -/
theorem Node.run_tooDeep (n : Node) {outer : List Open} (o : Open) (pos : Nat) (rest : List Char)
    (ht : n.Tidy) (hkeys : NamedKeys n.attributes) (hbelow : Forest.Keyed n.children)
    (hd : maxDepth < outer.length + 1 + n.height) :
    ∃ offset, run outer o ⟨pos, n.chars ++ rest⟩ = .error ⟨offset, .tooDeep⟩ := by
  by_cases hroom : outer.length + 1 < maxDepth
  · cases n with
    | leaf name attributes datum => exact absurd hd (Nat.not_lt.2 hroom)
    | branch name attributes children =>
      obtain ⟨hname, -, hchildren⟩ := ht
      have hkeys : NamedKeys attributes := hkeys
      have hopen := isOpenTag_openingChars .container hname hkeys
      have hs := upcoming_openingChars hname .container attributes
      rw [Node.chars, List.append_assoc, List.append_assoc, run_openTag hopen hs hroom,
        if_neg Bool.false_ne_true]
      refine Forest.run_tooDeep children _ _ _ hchildren hbelow hroom ?_
      rw [Node.height] at hd
      rw [List.length_cons]
      omega
  · exact ⟨pos, run_opening_tooDeep (upcoming_chars ht rest) (Nat.not_lt.1 hroom)⟩

/-- Where there is no room for it, a forest is refused at the first node that is too high. -/
theorem Forest.run_tooDeep (f : Forest) {outer : List Open} (o : Open) (pos : Nat) (rest : List Char)
    (ht : Forest.Tidy f) (hkeys : Forest.Keyed f) (hopen : outer.length + 1 ≤ maxDepth)
    (hd : maxDepth < outer.length + 1 + Forest.height f) :
    ∃ offset, run outer o ⟨pos, Forest.chars f ++ rest⟩ = .error ⟨offset, .tooDeep⟩ := by
  cases f with
  | nil => exact absurd hd (Nat.not_lt.2 hopen)
  | cons n f =>
    obtain ⟨hself, hbelow, hrest⟩ := hkeys.of_cons
    rw [Forest.chars, List.append_assoc]
    by_cases hn : outer.length + 1 + n.height ≤ maxDepth
    · obtain ⟨e, helement, -⟩ := exists_element_of_height (outer.length + 1) pos ht.1 hself hbelow hn
      have hs := upcoming_chars ht.1 []
      rw [List.append_nil] at hs
      rw [n.height_eq] at hn
      rw [helement.run hs (by omega)]
      refine Forest.run_tooDeep f _ _ rest ht.2.2 hrest hopen ?_
      rw [Forest.height, n.height_eq] at hd
      omega
    · exact n.run_tooDeep o pos _ ht.1 hself hbelow (Nat.not_le.1 hn)

end

theorem readElement_tooDeep {n : Node} (ht : n.Tidy) (hkeys : NamedKeys n.attributes)
    (hbelow : Forest.Keyed n.children) (hd : maxDepth < n.height) (pos : Nat) (rest : List Char) :
    ∃ offset, readElement ⟨pos, n.chars ++ rest⟩ = .error ⟨offset, .tooDeep⟩ := by
  cases n with
  | leaf name attributes datum => exact absurd hd (by rw [Node.height]; decide)
  | branch name attributes children =>
    obtain ⟨hname, -, hchildren⟩ := ht
    have hkeys : NamedKeys attributes := hkeys
    have hopen := isOpenTag_openingChars .container hname hkeys
    have hroom : maxDepth < ([] : List Open).length + 1 + Forest.height children := by
      rw [Node.height] at hd
      rw [List.length_nil]
      omega
    obtain ⟨offset, hrun⟩ := Forest.run_tooDeep children
      (Open.ofTag ⟨name, (kindKey, Kind.container.marker) :: attributes, false⟩
        (pos + byteSize (openingChars name .container attributes)))
      (pos + byteSize (openingChars name .container attributes)) (closingChars name ++ rest)
      hchildren hbelow (by decide) hroom
    refine ⟨offset, ?_⟩
    rw [Node.chars, List.append_assoc, List.append_assoc, readElement, hopen.takes]
    exact hrun

mutual

theorem Node.SaidBy.height {n : Node} {e : Element} (h : n.SaidBy e) : e.height = n.height := by
  obtain ⟨ename, eattributes, text, echildren, bodyStart, bodyEnd⟩ := e
  cases n with
  | leaf name attributes datum =>
    obtain ⟨-, -, -, rfl⟩ := h
    rfl
  | branch name attributes children =>
    rw [Element.height, Node.height, Forest.SaidBy.height (f := children) h.2.2]

/-- Elements that say a forest are as high as the forest. -/
theorem Forest.SaidBy.height {f : Forest} {es : List Element} (h : Forest.SaidBy f es) :
    Element.heightAll es = Forest.height f := by
  cases f with
  | nil =>
    obtain rfl := h
    rfl
  | cons n f =>
    obtain ⟨e, rest, rfl, hsaid, hsaids⟩ := h
    rw [Element.heightAll, Forest.height, hsaid.height, Forest.SaidBy.height hsaids]

end

/-! ## Whole texts -/

/-- The text of a node is an element that says it. -/
theorem exists_parseFirst_chars {n : Node} (ht : n.Tidy) (hkeys : NamedKeys n.attributes)
    (hbelow : Forest.Keyed n.children) (hd : n.height ≤ maxDepth) :
    ∃ e, parseFirst (String.ofList n.chars) = .ok e ∧ n.SaidBy e := by
  obtain ⟨e, helement, hsaid⟩ :=
    exists_element_of_height 0 0 ht hkeys hbelow (by rwa [Nat.zero_add])
  obtain ⟨c, rest, hchars, -⟩ := exists_chars_cons ht
  have hskip := skipMisc_chars_append ht 0 []
  have hread := helement.readElement []
  refine ⟨e, ?_, hsaid⟩
  rw [List.append_nil] at hskip hread
  rw [hchars] at hskip hread
  rw [parseFirst, Cursor.start, String.toList_ofList, hchars, readNext, hskip]
  exact congrArg (Except.map Prod.fst) hread

section
variable {f : Forest}

theorem exists_readAll_chars (ht : Forest.Tidy f) (hkeys : Forest.Keyed f)
    (hd : Forest.height f ≤ maxDepth) (pos : Nat) :
    ∃ es, readAll ⟨pos, Forest.chars f⟩ = .ok es ∧ Forest.SaidBy f es := by
  induction f generalizing pos with
  | nil => exact ⟨[], readAll_nil pos, rfl⟩
  | cons n f ih =>
    obtain ⟨hself, hbelow, hrest⟩ := hkeys.of_cons
    obtain ⟨hn, hf⟩ := Nat.max_le.1 hd
    obtain ⟨e, helement, hsaid⟩ :=
      exists_element_of_height 0 pos ht.1 hself hbelow (by rwa [Nat.zero_add])
    obtain ⟨es, hread, hsaids⟩ := ih ht.2.2 hrest hf (pos + byteSize n.chars)
    refine ⟨e :: es, ?_, e, es, rfl, hsaid, hsaids⟩
    rw [Forest.chars, readAll_chars_append ht.1, helement.readElement]
    simp only [hread]

theorem readAll_tooDeep (ht : Forest.Tidy f) (hkeys : Forest.Keyed f)
    (hd : maxDepth < Forest.height f) (pos : Nat) :
    ∃ offset, readAll ⟨pos, Forest.chars f⟩ = .error ⟨offset, .tooDeep⟩ := by
  induction f generalizing pos with
  | nil => exact absurd hd (Nat.not_lt.2 (Nat.zero_le _))
  | cons n f ih =>
    obtain ⟨hself, hbelow, hrest⟩ := hkeys.of_cons
    rw [Forest.chars, readAll_chars_append ht.1]
    by_cases hn : n.height ≤ maxDepth
    · obtain ⟨e, helement, -⟩ :=
        exists_element_of_height 0 pos ht.1 hself hbelow (by rwa [Nat.zero_add])
      obtain ⟨offset, hread⟩ := ih ht.2.2 hrest (by rw [Forest.height] at hd; omega)
        (pos + byteSize n.chars)
      refine ⟨offset, ?_⟩
      rw [helement.readElement]
      simp only [hread]
    · obtain ⟨offset, hread⟩ := readElement_tooDeep ht.1 hself hbelow (Nat.not_le.1 hn) pos
        (Forest.chars f)
      exact ⟨offset, by rw [hread]⟩

end

section
variable {r : Registry}

/-- A node at a path is the entry there. -/
theorem entry?_of_get? {p : Path} {n : Node} (hn : r.forest.get? p = some n) :
    r.entry? p = some n.entry :=
  congrArg (Option.map Node.entry) hn

/-- What is listed is an entry. -/
theorem entry?_of_mem_listing (hr : Forest.Tidy r.forest) {found : Path × Node}
    (hfound : found ∈ Forest.listing [] r.forest) : r.entry? found.1 = some found.2.entry := by
  obtain ⟨p, -, hpath, hget⟩ := get?_of_mem_forestListing hr hfound
  rw [hpath, List.nil_append, entry?_of_get? hget]

/-- An entry is listed. -/
theorem exists_mem_listing {p : Path} {e : Entry} (h : r.entry? p = some e) :
    ∃ n : Node, (p, n) ∈ Forest.listing [] r.forest ∧ n.entry = e := by
  obtain ⟨n, hn, he⟩ := Option.map_eq_some_iff.1 h
  exact ⟨n, Forest.mem_listing_of_get? hn [], he⟩

theorem keyed_of_entries (hr : Forest.Tidy r.forest)
    (h : ∀ {p e}, r.entry? p = some e → NamedKeys e.attributes) : Forest.Keyed r.forest :=
  fun _ hfound => h (entry?_of_mem_listing hr hfound)

theorem height_le_of_entries (hr : Forest.Tidy r.forest) {k : Nat}
    (h : ∀ {p e}, r.entry? p = some e → p.length ≤ k) : Forest.height r.forest ≤ k := by
  have hlength : ∀ found ∈ Forest.listing [] r.forest, found.1.length ≤ ([] : Path).length + k := by
    intro found hfound
    rw [List.length_nil, Nat.zero_add]
    exact h (entry?_of_mem_listing hr hfound)
  exact Forest.height_le r.forest hlength

theorem length_le_of_entry {p : Path} {e : Entry} (h : r.entry? p = some e) :
    p.length ≤ Forest.height r.forest := by
  obtain ⟨n, hn, -⟩ := exists_mem_listing h
  have hlength := Forest.length_le r.forest hn
  rwa [List.length_nil, Nat.zero_add] at hlength

/-- The text of the top-level entries is parsed into elements that say them. -/
theorem exists_parseAll_renderRoots (ht : Forest.Tidy r.forest) (hkeys : Forest.Keyed r.forest)
    (hd : Forest.height r.forest ≤ maxDepth) :
    ∃ es, parseAll r.renderRoots = .ok es ∧ Forest.SaidBy r.forest es := by
  rw [parseAll, Cursor.start, renderRoots, String.toList_ofList]
  exact exists_readAll_chars ht hkeys hd 0

theorem parseAll_renderRoots_tooDeep (ht : Forest.Tidy r.forest) (hkeys : Forest.Keyed r.forest)
    (hd : maxDepth < Forest.height r.forest) :
    ∃ offset, parseAll r.renderRoots = .error ⟨offset, .tooDeep⟩ := by
  rw [parseAll, Cursor.start, renderRoots, String.toList_ofList]
  exact readAll_tooDeep ht hkeys hd 0

end

end Lockstep.Registry
