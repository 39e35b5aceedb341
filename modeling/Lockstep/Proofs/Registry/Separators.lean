import Lockstep.Proofs.Registry.Nesting
import Lockstep.Proofs.Registry.Reread

/- Which separators keep a list.

   1. A datum without a number that is none is read again as it was when its separator parts its elements,
      and as a list of another length when it does not (`Datum.reread_eq_self_iff`). What is wrong
      with a separator is that numbers hold it, or that texts are escaped with it.
   2. An attribute that is set changes no path, so every name goes on to mean what it meant
      (`resolve_congr`), and the entry has the attribute (`get?_update_self`).
   3. So after any text was set as the separator of an entry, the entry's own markup is added to an empty
      registry in any case, and as the same value if and only if the separator parts it
      (`separator_kept_iff`). Nothing refuses a separator that does not (`separators_fail`). -/
namespace Lockstep
open Text

/-! ## Elements that hold the separator -/

theorem one_lt_length_splitOn {sep : Char} {cs : List Char} (h : sep ∈ cs) :
    1 < (cs.splitOn sep).length := by
  obtain ⟨front, back, rfl⟩ := List.append_of_mem h
  have hfront := List.length_pos_iff.2 (List.splitOn_ne_nil sep front)
  have hback := List.length_pos_iff.2 (List.splitOn_ne_nil sep back)
  rw [List.splitOn_append_cons_self, List.length_append]
  omega

theorem length_le_length_flatMap (sep : Char) (es : List (List Char)) :
    es.length ≤ (es.flatMap (List.splitOn sep)).length := by
  induction es with
  | nil => exact Nat.le_refl 0
  | cons e es ih =>
    have he := List.length_pos_iff.2 (List.splitOn_ne_nil sep e)
    rw [List.flatMap_cons, List.length_append, List.length_cons]
    omega

/-- One element that holds the separator makes more elements of all. -/
theorem length_lt_length_flatMap {sep : Char} {es : List (List Char)} (h : ∃ e ∈ es, sep ∈ e) :
    es.length < (es.flatMap (List.splitOn sep)).length := by
  obtain ⟨e, he, hsep⟩ := h
  obtain ⟨front, back, rfl⟩ := List.append_of_mem he
  have hfront := length_le_length_flatMap sep front
  have hback := length_le_length_flatMap sep back
  have hmore := one_lt_length_splitOn hsep
  rw [List.flatMap_append, List.flatMap_cons]
  simp only [List.length_append, List.length_cons]
  omega

/-- Numbers of which one holds the separator are read as more numbers. -/
theorem length_lt_length_plainElements {α : Type} {sep : Char} {write : α → List Char} {ns : List α}
    (h : ∀ n ∈ ns, Binary32.IsNumeral (write n) ∧ write n ≠ []) (hsep : ∃ n ∈ ns, sep ∈ write n) :
    ns.length < (plainElements sep ([sep].intercalate (ns.map write))).length := by
  have hblank : ∀ e ∈ ns.map write, e.all isBlank = false := by
    intro e he
    obtain ⟨n, hn, rfl⟩ := List.mem_map.1 he
    exact all_isBlank_of_isNumeral (h n hn).1 (h n hn).2
  obtain ⟨n, hn, hmem⟩ := hsep
  have hlt := length_lt_length_flatMap ⟨write n, List.mem_map_of_mem hn, hmem⟩
  rwa [plainElements_intercalate_flatMap hblank, ← List.length_map (f := write)]

theorem length_consFirst {c : Char} {es : List (List Char)} (h : es.length = 1) :
    (consFirst c es).length = 1 := by
  cases es with
  | nil => rfl
  | cons e es => exact h

/-- A backslash parts nothing: it is taken for what escapes before it is taken for a separator. -/
theorem length_unescapeElements_backslash (cs : List Char) :
    (unescapeElements '\\' cs).length = 1 := by
  fun_induction unescapeElements '\\' cs with
  | case1 => rfl
  | case2 c cs ih => exact length_consFirst ih
  | case3 c cs _ hsep => exact absurd hsep.1 hsep.2
  | case4 c cs _ _ ih => exact length_consFirst ih

theorem length_textElements_backslash (cs : List Char) : (textElements '\\' cs).length ≤ 1 := by
  unfold textElements
  split
  · exact Nat.zero_le 1
  · split
    · exact Nat.le_refl 1
    · exact Nat.le_of_eq (length_unescapeElements_backslash cs)

namespace Datum

/-- How many elements a list has; anything else counts as one. -/
def size : Datum → Nat
  | ints ns => ns.length
  | floats xs => xs.length
  | texts ss => ss.length
  | _ => 1

variable {d e : Datum} {sep : Char}

/-- Lists that compare as the same are as long as each other. -/
theorem size_of_same (h : d.same e = true) : d.size = e.size := by
  cases d <;> cases e <;> simp_all [same, size]

theorem same_self (h : d.NaNFree) : d.same d = true := by
  have hnumber : ∀ {x : Binary32}, x.isNaN = false → x.same x = true := by
    intro x hx
    simp [Binary32.same, hx]
  cases d with
  | float x => exact hnumber h
  | floats xs =>
    simp only [same, beq_self_eq_true, Bool.true_and, List.all_eq_true]
    rintro ⟨x, y⟩ hp
    obtain ⟨i, hi, heq⟩ := List.mem_iff_getElem.1 hp
    rw [List.getElem_zip] at heq
    obtain ⟨rfl, rfl⟩ := Prod.mk.inj heq
    exact hnumber (h _ (List.getElem_mem _))
  | _ => exact beq_self_eq_true _

/-- What a datum is read again as is what its text says. -/
theorem datum_reread (d : Datum) (sep : Char) :
    Value.datum (d.reread sep) = Value.ofChars d.kind sep (d.chars sep) := by
  rw [← ofBody_chars_reread, Value.ofBody_datum]

/-- What its separator does not part is read again as a list of another length. -/
theorem size_reread_ne (h : d.NaNFree) (hp : ¬ d.Parted sep) : (d.reread sep).size ≠ d.size := by
  have hreread := datum_reread d sep
  cases d with
  | ints ns =>
    have hmore : ns.length < (plainElements sep ((ints ns).chars sep)).length :=
      length_lt_length_plainElements
        (fun n _ => ⟨Binary32.isNumeral_int32Chars n, Numeral.int32Chars_ne_nil n⟩)
        (by simpa [Parted] using hp)
    rw [Value.datum.inj hreread]
    show ((plainElements sep ((ints ns).chars sep)).map intOrZero).length ≠ ns.length
    rw [List.length_map]
    exact Nat.ne_of_gt hmore
  | floats xs =>
    have hmore : xs.length < (plainElements sep ((floats xs).chars sep)).length :=
      length_lt_length_plainElements
        (fun x hx => ⟨Binary32.isNumeral_chars (h x hx), chars_ne_nil x⟩)
        (by simpa [Parted] using hp)
    rw [Value.datum.inj hreread]
    show ((plainElements sep ((floats xs).chars sep)).map floatOrZero).length ≠ xs.length
    rw [List.length_map]
    exact Nat.ne_of_gt hmore
  | texts ss =>
    obtain ⟨hsep, hlength⟩ := not_or.1 hp
    obtain rfl : sep = '\\' := not_not.1 hsep
    have hfew := length_textElements_backslash ((texts ss).chars '\\')
    rw [Value.datum.inj hreread]
    show ((textElements '\\' ((texts ss).chars '\\')).map String.ofList).length ≠ ss.length
    rw [List.length_map]
    exact Nat.ne_of_lt (Nat.lt_of_le_of_lt hfew (Nat.not_le.1 hlength))
  | _ => exact absurd trivial hp

/-- A datum is read again as it was if and only if its separator parts it. -/
theorem reread_eq_self_iff (h : d.NaNFree) : d.reread sep = d ↔ d.Parted sep := by
  constructor
  · intro hself
    by_contra hp
    exact size_reread_ne h hp (congrArg size hself)
  · intro hp
    exact Value.datum.inj ((datum_reread _ sep).trans (ofChars_chars h hp))

/-- Nor does comparing the numbers instead of their bits make up for it. -/
theorem same_reread_iff (h : d.NaNFree) : (d.reread sep).same d = true ↔ d.Parted sep := by
  constructor
  · intro hsame
    by_contra hp
    exact size_reread_ne h hp (size_of_same hsame)
  · intro hp
    rw [(reread_eq_self_iff h).2 hp]
    exact same_self h

instance (sep : Char) (d : Datum) : Decidable (d.Parted sep) :=
  match d with
  | .ints ns => List.decidableBAll (fun n => sep ∉ Numeral.int32Chars n) ns
  | .floats xs => List.decidableBAll (fun x : Binary32 => sep ∉ x.chars) xs
  | .texts ss => inferInstanceAs (Decidable (sep ≠ '\\' ∨ ss.length ≤ 1))
  | .empty | .int _ | .float _ | .text _ => isTrue trivial

end Datum

namespace Registry
open Markup Forest

/-! ## Attributes that are set -/

theorem isName_separatorKey : IsName separatorKey.toList := by decide

/-- The separator that a text asks for is its first character. -/
theorem separatorOf_set (attributes : Attributes) (text : String) :
    separatorOf (attributes.set separatorKey text) = (text.toList.head?).getD defaultSeparator := by
  rw [separatorOf, Attributes.get?_set_self]
  rfl

namespace Forest
variable {f : Forest} {g : Node → Node}

/-- A node that was changed, but not in its name, is found changed. -/
theorem get?_update_self (hname : ∀ n, (g n).name = n.name) (p : Path) (f : Forest) :
    get? p (update g p f) = (get? p f).map g := by
  induction p generalizing f with
  | nil => rfl
  | cons name rest ih =>
    cases rest with
    | nil => rw [update, get?, child?_updateChild hname, if_pos rfl, get?]
    | cons next rest =>
      rw [update, get?, child?_updateChild fun n => Node.name_mapChildren _ n, if_pos rfl, get?]
      cases child? name f with
      | none => rfl
      | some n =>
        show get? (next :: rest) (n.mapChildren (update g (next :: rest))).children =
          (get? (next :: rest) n.children).map g
        rw [children_mapChildren (update_nil g (next :: rest)), ih]

end Forest

section
variable {r r' : Registry}

theorem search_congr (h : ∀ p, r.contains p = r'.contains p) (relative : Path)
    (scope : List String) : r.search relative scope = r'.search relative scope := by
  induction scope with
  | nil => rw [search, search, h]
  | cons segment outer ih => simp only [search, h, ih]

/-- What a name means depends on the paths of the entries only. -/
theorem resolve_congr (h : ∀ p, r.contains p = r'.contains p) (name scope : String) :
    r.resolve name scope = r'.resolve name scope := by
  simp only [resolve, h, search_congr h]

/-- An attribute that is set leaves all paths as they are. -/
theorem contains_mapAttributes (g : Attributes → Attributes) (p q : Path) :
    ({ r with forest := r.forest.update (Node.mapAttributes g) p } : Registry).contains q =
      r.contains q := by
  have hentry := entryAt_update (g := Node.mapAttributes g) (Node.name_mapAttributes g)
    (Node.children_mapAttributes g) p q r.forest
  have hsome : ∀ f : Forest, (get? q f).isSome = (entryAt q f).isSome := fun f =>
    (Option.isSome_map ..).symm
  rw [contains, contains, hsome, hsome, hentry]
  split
  · rename_i hq
    rw [hq, entryAt, Option.isSome_map, Option.isSome_map]
  · rfl

end

/-! ## Entries on their own -/

section
variable {n : Node}

/-- The markup of a node is added to an empty registry as the node, its data reread. -/
theorem addMarkup_empty (ht : n.Tidy) (hkeys : NamedKeys n.attributes)
    (hbelow : Forest.Keyed n.children) (hd : n.height ≤ maxDepth) (index : String) :
    (empty index).addMarkup (String.ofList n.chars) =
      (.ok [n.name], { empty index with forest := [n.reread] }) := by
  obtain ⟨e, hparse, hsaid⟩ := exists_parseFirst_chars ht hkeys hbelow hd
  simp only [addMarkup, addMarkupIn, hparse]
  exact load_of_saidBy n (r := empty index) (p := []) ht hsaid (by simp [Path.WellFormed]) trivial rfl

end

/-- An entry that a name means is a node at the path that the name means. -/
theorem exists_node_of_entryIn {r : Registry} {name scope : String} {e : Entry}
    (h : r.entryIn name scope = .ok e) :
    ∃ p n, r.resolve name scope = .ok p ∧ r.forest.get? p = some n ∧ n.entry = e := by
  cases hp : r.resolve name scope with
  | error err =>
    simp only [entryIn, nodeIn, hp] at h
    cases h
  | ok p =>
    obtain ⟨n, hn⟩ := Table.exists_of_resolve hp
    simp only [entryIn, nodeIn, hp, hn] at h
    exact ⟨p, n, rfl, hn, Except.ok.inj h⟩

/-- Whatever text is set as the separator of an entry that holds a datum, its own markup is added to an
    empty registry of any name, with the attributes that it then has. The datum comes back, and compares
    as the same, if and only if the first character of that text, or a comma if there is none, parts
    its elements. -/
theorem separator_kept_iff {r : Registry} (hr : Reachable r) {name : String} {d : Datum}
    {attributes : Attributes} (he : r.entryIn name r.namespaceText = .ok ⟨.datum d, attributes⟩)
    (hd : d.NaNFree) (hkeys : NamedKeys attributes) (text index : String) :
    ∃ r' out leaf copy d', r.setAttribute name separatorKey text = .ok r' ∧
      r'.renderIn name r'.namespaceText = .ok out ∧
      (empty index).addMarkup out = (.ok [leaf], copy) ∧
      copy.entry? [leaf] = some ⟨.datum d', attributes.set separatorKey text⟩ ∧
      (d' = d ↔ d.Parted ((text.toList.head?).getD defaultSeparator)) ∧
      (d'.same d = true ↔ d.Parted ((text.toList.head?).getD defaultSeparator)) := by
  obtain ⟨p, n, hp, hn, hentry⟩ := exists_node_of_entryIn he
  cases n with
  | branch leaf held children => cases hentry
  | leaf leaf held datum =>
    cases hentry
    have hset : r.setAttribute name separatorKey text = .ok { r with
        forest := r.forest.update (Node.mapAttributes (Attributes.set separatorKey text)) p } := by
      simp only [setAttribute, hp]
      exact if_neg (by decide)
    generalize hr' : ({ r with forest := r.forest.update (Node.mapAttributes
      (Attributes.set separatorKey text)) p } : Registry) = r' at hset
    -- The name goes on to mean the entry, which is the same node with the attribute.
    have hresolve : r'.resolve name r'.namespaceText = .ok p := by
      rw [← hp, ← hr']
      exact resolve_congr (contains_mapAttributes _ p) name _
    have hnode : r'.forest.get? p =
        some (.leaf leaf (held.set separatorKey text) d) := by
      rw [← hr', get?_update_self (Node.name_mapAttributes _), hn]
      rfl
    have htidy : Forest.Tidy r'.forest := by
      have hreach := hr.perform (.setAttribute name separatorKey text)
      rw [perform, hset] at hreach
      exact (tidy_of_reachable hreach).forest
    have hrender : r'.renderIn name r'.namespaceText =
        .ok (String.ofList (Node.leaf leaf (held.set separatorKey text) d).chars) := by
      simp only [renderIn, nodeIn, hresolve, hnode]
      rfl
    have hbelow : Forest.Keyed [] := fun _ hfound => absurd hfound List.not_mem_nil
    have hadd := addMarkup_empty (htidy.get? hnode).1 (hkeys.set isName_separatorKey text) hbelow
      (by rw [Node.height]; decide) index
    refine ⟨r', _, leaf, _, d.reread (separatorOf (held.set separatorKey text)), hset, hrender, hadd,
      ?_, ?_, ?_⟩
    · have hfound : child? leaf [(Node.leaf leaf (held.set separatorKey text) d).reread] = some _ :=
        (child?_singleton _).trans (if_pos rfl)
      exact congrArg (Option.map Node.entry) hfound
    · rw [Datum.reread_eq_self_iff hd, separatorOf_set]
    · rw [Datum.same_reread_iff hd, separatorOf_set]

/-- Numbers and texts in lists, without a separator of their own. -/
def listed : Registry := (empty "index").after
  [.add "/zone/counts" (.datum (.ints [11])), .add "/labels" (.datum (.texts ["a", "b"]))]

theorem reachable_listed : Reachable listed := (Reachable.empty "index").after _

/-- The texts are kept by a semicolon, and joined into one by a backslash. -/
theorem separator_kept_listed :
    (∃ r' out leaf copy d', listed.setAttribute "labels" "separator" "; " = .ok r' ∧
      r'.renderIn "labels" r'.namespaceText = .ok out ∧
      (empty "copy").addMarkup out = (.ok [leaf], copy) ∧
      copy.entry? [leaf] = some ⟨.datum d', [("separator", "; ")]⟩ ∧ d' = .texts ["a", "b"]) ∧
    ∃ r' out leaf copy d', listed.setAttribute "labels" "separator" "\\" = .ok r' ∧
      r'.renderIn "labels" r'.namespaceText = .ok out ∧
      (empty "copy").addMarkup out = (.ok [leaf], copy) ∧
      copy.entry? [leaf] = some ⟨.datum d', [("separator", "\\")]⟩ ∧
      d'.same (.texts ["a", "b"]) = false := by
  have he : listed.entryIn "labels" listed.namespaceText = .ok ⟨.datum (.texts ["a", "b"]), []⟩ := by
    decide +kernel
  constructor
  · obtain ⟨r', out, leaf, copy, d', hset, hrender, hadd, hentry, hself, -⟩ :=
      separator_kept_iff reachable_listed he trivial nofun "; " "copy"
    exact ⟨r', out, leaf, copy, d', hset, hrender, hadd, hentry, hself.2 (by decide +kernel)⟩
  · obtain ⟨r', out, leaf, copy, d', hset, hrender, hadd, hentry, -, hsame⟩ :=
      separator_kept_iff reachable_listed he trivial nofun "\\" "copy"
    exact ⟨r', out, leaf, copy, d', hset, hrender, hadd, hentry,
      Bool.eq_false_iff.2 (mt hsame.1 (by decide +kernel))⟩

/-- A digit is taken for a separator as well, and parts the one number of a list into three. -/
theorem separators_fail :
    ¬ ∀ {r r' : Registry} {name text out : String} {d : Datum} {attributes : Attributes},
      Reachable r → r.entryIn name r.namespaceText = .ok ⟨.datum d, attributes⟩ → d.NaNFree →
      NamedKeys attributes → r.setAttribute name separatorKey text = .ok r' →
      r'.renderIn name r'.namespaceText = .ok out →
      ∃ p d' attributes', ((empty "copy").addMarkup out).1 = .ok p ∧
        Registry.entry? ((empty "copy").addMarkup out).2 p = some ⟨.datum d', attributes'⟩ ∧
        d'.same d = true := by
  intro h
  have he : listed.entryIn "/zone/counts" listed.namespaceText = .ok ⟨.datum (.ints [11]), []⟩ := by
    decide +kernel
  have hp : listed.resolve "/zone/counts" listed.namespaceText = .ok ["zone", "counts"] := by
    decide +kernel
  have hset : listed.setAttribute "/zone/counts" separatorKey "1" =
      .ok (listed.setAttributesAt ["zone", "counts"] [(separatorKey, "1")]) := by
    simp only [setAttribute, hp]
    exact if_neg (by decide)
  have hrender : (listed.setAttributesAt ["zone", "counts"] [(separatorKey, "1")]).renderIn
      "/zone/counts" "/" = .ok "<counts type=\"intarray\" separator=\"1\">11</counts>" := by
    decide +kernel
  have hcopied : Registry.entry? ((empty "copy").addMarkup
      "<counts type=\"intarray\" separator=\"1\">11</counts>").2 ["counts"] =
      some ⟨.datum (.ints [0, 0, 0]), [(separatorKey, "1")]⟩ := by decide +kernel
  obtain ⟨p, d', attributes', hadd, hentry, hsame⟩ :=
    h reachable_listed he trivial nofun hset hrender
  obtain rfl : p = ["counts"] := Except.ok.inj (hadd.symm.trans (by decide +kernel))
  obtain ⟨rfl, -⟩ : d' = .ints [0, 0, 0] ∧ attributes' = [(separatorKey, "1")] := by
    simpa using hentry.symm.trans hcopied
  exact absurd hsame (by decide)

end Registry
end Lockstep
