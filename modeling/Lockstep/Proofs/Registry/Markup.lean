import Lockstep.Proofs.Markup.Document
import Lockstep.Proofs.Markup.Escaping
import Lockstep.Proofs.Registry.Tidy
import Lockstep.Registry.Basic

/- The markup of entries, as the parser sees it.

   1. The opening tag of an entry is one with its kind and its attributes, provided that every key can
      be a name (`isOpenTag_openingChars`).
   2. `SaidBy` relates a node to an element that says the same: name, kind, attributes, and either the
      body of its datum or the nodes below it.
   3. Where `height` leaves room for the nesting, the markup of a node is such an element, and the
      markup of a forest is content with such elements (`exists_element_chars`, `exists_fills_chars`).
      So the text of a registry is parsed into an element around others that say its entries
      (`exists_parseAll_render`). -/
namespace Lockstep.Registry
open Text Markup

/-! ## Tags -/

/-- Attributes that can be written in a tag. -/
def NamedKeys (attributes : Attributes) : Prop := ∀ pair ∈ attributes, IsName pair.1.toList

instance (attributes : Attributes) : Decidable (NamedKeys attributes) :=
  List.decidableBAll (fun pair : String × String => IsName pair.1.toList) attributes

theorem isName_of_isSegment {name : String} (h : isSegment name.toList = true) :
    IsName name.toList :=
  ⟨ne_nil_of_isSegment h, fun _ hc => endsName_of_isPlain (isPlain_of_mem h hc)⟩

theorem isTagEnd_attributes {attributes : Attributes} (h : NamedKeys attributes) :
    IsTagEnd (attributes.flatMap attributeChars ++ ['>']) (attributes, false) := by
  induction attributes with
  | nil => exact .opens isGap_nil
  | cons pair rest ih =>
    have hattribute : IsAttribute (pair.1.toList ++ ([] ++ '=' ::
        ([] ++ ('"' :: escape pair.2.toList ++ ['"'])))) pair :=
      ⟨_, [], [], _, h pair List.mem_cons_self, isGap_nil, isGap_nil, isQuoted_escape (.inl rfl) pair.2, rfl,
        by rw [String.ofList_toList]⟩
    have hend := IsTagEnd.cons isGap_space hattribute (ih fun p hp => h p (List.mem_cons_of_mem pair hp))
    have hchars : [' '] ++ ((pair.1.toList ++ ([] ++ '=' :: ([] ++ ('"' :: escape pair.2.toList ++
        ['"'])))) ++ (rest.flatMap attributeChars ++ ['>'])) =
        (pair :: rest).flatMap attributeChars ++ ['>'] := by
      simp [attributeChars]
    rw [hchars] at hend
    exact hend

theorem isOpenTag_openingChars {name : String} {attributes : Attributes} (kind : Kind)
    (hname : isSegment name.toList = true) (h : NamedKeys attributes) :
    IsOpenTag (openingChars name kind attributes)
      ⟨name, (kindKey, kind.marker) :: attributes, false⟩ := by
  have hkind : IsName kindKey.toList := by decide
  have hkeys : NamedKeys ((kindKey, kind.marker) :: attributes) := by
    intro pair hpair
    rcases List.mem_cons.1 hpair with rfl | hpair
    · exact hkind
    · exact h pair hpair
  refine ⟨name.toList, _, isName_of_isSegment hname, ?_, isTagEnd_attributes hkeys, ?_, ?_⟩
  · rw [List.flatMap_cons, attributeChars, List.cons_append, List.cons_append, List.cons_append,
      List.cons_append, List.cons_append, stopsBy_cons]
    decide
  · simp [openingChars]
  · rw [String.ofList_toList]

theorem isCloseTag_closingChars {name : String} (hname : isSegment name.toList = true) :
    IsCloseTag (closingChars name) name :=
  ⟨[], isGap_nil, isName_of_isSegment hname, by simp [closingChars]⟩

/-- The second character of a tag is that of a name, so the tag is none of the other constructs. -/
theorem exists_openingChars {name : String} (hname : isSegment name.toList = true) (kind : Kind)
    (attributes : Attributes) : ∃ c rest, openingChars name kind attributes = '<' :: c :: rest ∧
      c ≠ '/' ∧ c ≠ '!' ∧ c ≠ '?' := by
  cases hcs : name.toList with
  | nil =>
    rw [hcs] at hname
    cases hname
  | cons c cs =>
    rw [hcs, isSegment, Bool.and_eq_true] at hname
    refine ⟨c, _, by rw [openingChars, hcs]; rfl, ?_, ?_, ?_⟩ <;> rintro rfl <;>
      exact absurd hname.1 (by decide)

theorem upcoming_cons_cons {c : Char} (hslash : c ≠ '/') (hbang : c ≠ '!') (rest : List Char) :
    upcoming ('<' :: c :: rest) = .opening := by
  unfold upcoming
  split <;> simp_all

/-! ## Elements that say nodes -/

mutual

/-- An element that says a node. -/
def Node.SaidBy : Node → Element → Prop
  | .leaf name attributes datum, e =>
    e.name = name ∧ e.attributes = (kindKey, datum.kind.marker) :: attributes ∧
      e.text = String.ofList (datum.chars (separatorOf attributes)) ∧ e.children = []
  | .branch name attributes children, e =>
    e.name = name ∧ e.attributes = (kindKey, Kind.container.marker) :: attributes ∧
      Forest.SaidBy children e.children

/-- Elements that say the nodes of a forest, one by one. -/
def Forest.SaidBy : List Node → List Element → Prop
  | [], es => es = []
  | n :: forest, es => ∃ e rest, es = e :: rest ∧ n.SaidBy e ∧ Forest.SaidBy forest rest

end

/-- A node that has its place in markup: not too deep, and with keys that can be names. -/
def Placed (found : Path × Node) : Prop :=
  found.1.length < maxDepth ∧ NamedKeys found.2.attributes

theorem exists_chars (n : Node) :
    ∃ rest, n.chars = openingChars n.name n.kind n.attributes ++ rest := by
  cases n with
  | leaf name attributes datum => exact ⟨_, List.append_assoc ..⟩
  | branch name attributes children => exact ⟨_, List.append_assoc ..⟩

/-- The markup of a node starts as a tag does. -/
theorem exists_chars_cons {n : Node} (h : n.Tidy) :
    ∃ c rest, n.chars = '<' :: c :: rest ∧ c ≠ '/' ∧ c ≠ '!' ∧ c ≠ '?' := by
  obtain ⟨rest, hrest⟩ := exists_chars n
  obtain ⟨c, tag, htag, hc⟩ := exists_openingChars (Node.tidy_iff.1 h).1 n.kind n.attributes
  exact ⟨c, tag ++ rest, by rw [hrest, htag]; rfl, hc⟩

mutual

/-- The markup of a node is an element that says it; what lies below is listed under `below`. -/
theorem exists_element_chars (n : Node) {below : Path} (depth pos : Nat) (ht : n.Tidy)
    (hkeys : NamedKeys n.attributes)
    (hp : ∀ found ∈ Forest.listing below n.children, Placed found) (hd : depth ≤ below.length) :
    ∃ e, IsElement depth pos n.chars e ∧ n.SaidBy e := by
  cases n with
  | leaf name attributes datum =>
    obtain ⟨hname, -⟩ := ht
    have hopen := isOpenTag_openingChars datum.kind hname hkeys
    have hfills : ∀ o, Fills (depth + 1) (pos + byteSize (openingChars name datum.kind attributes))
        (escape (datum.chars (separatorOf attributes))) o _ := fills_escape _
    have helement := IsElement.around hopen rfl (hfills _) (isCloseTag_closingChars hname)
    rw [Node.chars, List.append_assoc]
    refine ⟨_, helement, rfl, rfl, ?_, rfl⟩
    show "" ++ String.ofList (unescape (escape _)) = _
    rw [unescape_escape, String.empty_append]
  | branch name attributes children =>
    obtain ⟨hname, -, hchildren⟩ := ht
    have hopen := isOpenTag_openingChars .container hname hkeys
    obtain ⟨es, hfills, hsaid⟩ := exists_fills_chars children
      (pos + byteSize (openingChars name .container attributes)) (Open.ofTag ⟨name, _, false⟩ _)
      hchildren hp (Nat.add_le_add_right hd 1)
    have helement := IsElement.around hopen rfl hfills (isCloseTag_closingChars hname)
    rw [Node.chars, List.append_assoc]
    exact ⟨_, helement, rfl, rfl, hsaid⟩

/-- The markup of a forest is content, with one element more for each of its nodes. -/
theorem exists_fills_chars (f : Forest) {above : Path} {depth : Nat} (pos : Nat) (o : Open)
    (ht : Forest.Tidy f) (hp : ∀ found ∈ Forest.listing above f, Placed found)
    (hd : depth ≤ above.length + 1) :
    ∃ es, Fills depth pos (Forest.chars f) o { o with children := o.children ++ es } ∧
      Forest.SaidBy f es := by
  cases f with
  | nil =>
    refine ⟨[], ?_, rfl⟩
    rw [List.append_nil]
    exact .done
  | cons n f =>
    obtain ⟨⟨hlength, hkeys⟩, hbelow, hrest⟩ := Forest.forall_mem_listing_cons hp
    rw [List.length_append, List.length_singleton] at hlength
    obtain ⟨e, helement, hsaid⟩ := exists_element_chars n depth pos ht.1 hkeys hbelow
      (by rwa [List.length_append, List.length_singleton])
    obtain ⟨es, hfills, hsaids⟩ :=
      exists_fills_chars f (pos + byteSize n.chars) (o.addChild e) ht.2.2 hrest hd
    refine ⟨e :: es, ?_, e, es, rfl, hsaid, hsaids⟩
    -- The parser has to take the tag of `n` for a tag, and to have room for one more open element.
    obtain ⟨c, rest, hchars, hslash, hbang, -⟩ := exists_chars_cons ht.1
    refine fills_of_isElement helement ?_ (Nat.lt_of_le_of_lt hd hlength) ?_
    · rw [hchars]
      exact upcoming_cons_cons hslash hbang rest
    · rw [← show (o.addChild e).children ++ es = o.children ++ (e :: es) from
        List.append_assoc o.children [e] es]
      exact hfills

end

/-- The markup of a forest can stand in an element that is in no other. -/
theorem isContent_chars {f : Forest} (ht : Forest.Tidy f)
    (hp : ∀ found ∈ Forest.listing [] f, Placed found) : IsContent 1 (Forest.chars f) := by
  intro pos o
  obtain ⟨es, hfills, -⟩ := exists_fills_chars f pos o ht hp (Nat.le_refl 1)
  exact ⟨_, hfills⟩

/-! ## Whole texts -/

/-- The markup of a node stands where an element is read. -/
theorem standing_chars {n : Node} (h : n.Tidy) (rest : List Char) : Standing (n.chars ++ rest) := by
  obtain ⟨c, tail, hchars, hslash, hbang, hquestion⟩ := exists_chars_cons h
  rw [hchars, List.cons_append, List.cons_append]
  refine ⟨(stopsBy_cons ..).2 (by decide), ?_, fun hd => ?_⟩
  · rw [upcoming_cons_cons hslash hbang]
    decide
  · obtain ⟨_, hd⟩ := hd
    exact hquestion (List.cons.inj (List.cons.inj hd).2).1.symm

theorem skipMisc_chars_append {n : Node} (h : n.Tidy) (pos : Nat) (rest : List Char) :
    skipMisc ⟨pos, n.chars ++ rest⟩ = .ok ⟨pos, n.chars ++ rest⟩ :=
  (IsMisc.blanks isGap_nil).skipMisc (standing_chars h rest) pos

/-- In front of the markup of a node, an element is read first. -/
theorem readAll_chars_append {n : Node} (h : n.Tidy) (pos : Nat) (rest : List Char) :
    readAll ⟨pos, n.chars ++ rest⟩ =
      match readElement ⟨pos, n.chars ++ rest⟩ with
      | .error f => .error f
      | .ok (e, after) =>
        match readAll after with
        | .error f => .error f
        | .ok es => .ok (e :: es) := by
  obtain ⟨c, tail, hchars, -⟩ := exists_chars_cons h
  have hcons : n.chars ++ rest = '<' :: (c :: tail ++ rest) := by rw [hchars]; rfl
  exact readAll_of_bracket (skipMisc_chars_append h pos rest) hcons

theorem readAll_nil (pos : Nat) : readAll ⟨pos, []⟩ = .ok [] :=
  (IsDocument.done (.blanks isGap_nil)).readAll

variable {r : Registry}

theorem render_eq (r : Registry) :
    r.render = String.ofList (Node.branch r.name [] r.forest).chars := by
  simp [render, Node.chars, openingChars]

/-- The text of all entries is parsed into one container that says them. -/
theorem exists_parseAll_render (hname : isSegment r.name.toList = true)
    (ht : Forest.Tidy r.forest) (hp : ∀ found ∈ Forest.listing [] r.forest, Placed found) :
    ∃ e, parseAll r.render = .ok [e] ∧ (Node.branch r.name [] r.forest).SaidBy e := by
  have htidy : (Node.branch r.name [] r.forest).Tidy := ⟨hname, tidyKeys_nil, ht⟩
  obtain ⟨e, helement, hsaid⟩ := exists_element_chars (Node.branch r.name [] r.forest)
    0 0 htidy (fun _ h => nomatch h) hp (Nat.le_refl 0)
  have hread := readAll_chars_append htidy 0 []
  rw [helement.readElement [], List.append_nil] at hread
  simp only [readAll_nil] at hread
  rw [parseAll, Cursor.start, render_eq, String.toList_ofList, hread]
  exact ⟨e, rfl, hsaid⟩

end Lockstep.Registry
