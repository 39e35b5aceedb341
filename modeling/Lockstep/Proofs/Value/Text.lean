import Mathlib.Data.List.Basic
import Mathlib.Data.List.TakeWhile
import Lockstep.Proofs.Numeral.Shortest
import Lockstep.Value.Text

/- Values read back from their text.

   1. `unescapeElements_intercalate`: an escaped list of texts is cut where it was joined, and its
      elements come out as they were. Only a backslash does not part them, and a lone element has no
      need to be parted.
   2. `Datum.Legible` says what a body must not mix up: a number that is none (`Datum.NaNFree`), a
      separator that is also a character of a number, a backslash that separates texts
      (`Datum.Parted`). `Value.Legible` adds what a container must not mix up: names with blanks
      around them or with the separator in them.
   3. A legible value is what its text says, for its kind and separator (`ofText_render`). So is a
      legible datum in markup, where blanks are cut off first: it has none (`ofBody_chars`). -/
namespace Lockstep
open Text

/-! ## Lists of texts -/

theorem foldr_consFirst (cs e : List Char) (es : List (List Char)) :
    cs.foldr consFirst (e :: es) = (cs ++ e) :: es := by
  induction cs with
  | nil => rfl
  | cons c cs ih => rw [List.foldr_cons, ih, consFirst, List.cons_append]

theorem unescapeElements_cons {sep c : Char} (hc : c ≠ '\\') (rest : List Char) :
    unescapeElements sep (c :: rest) =
      if c = sep ∧ c ≠ '\\' then [] :: unescapeElements sep rest
      else consFirst c (unescapeElements sep rest) := by
  rw [unescapeElements]
  exact fun _ _ h => absurd h hc

/-- An escaped element goes in front of what is read after it. -/
theorem unescapeElements_escapeElement_append (sep : Char) (cs rest : List Char) :
    unescapeElements sep (escapeElement sep cs ++ rest) =
      cs.foldr consFirst (unescapeElements sep rest) := by
  induction cs with
  | nil => rfl
  | cons c cs ih =>
    rw [escapeElement, List.flatMap_cons, List.append_assoc, List.foldr_cons, ← ih]
    split
    · rfl
    · rename_i h
      rw [List.singleton_append, unescapeElements_cons fun hc => h (.inl hc)]
      exact if_neg fun hc => h (.inr hc.1)

/-- Escaped elements are cut where they were joined. -/
theorem unescapeElements_intercalate {sep : Char} (es : List (List Char))
    (hsep : sep ≠ '\\' ∨ es.length ≤ 1) (hne : es ≠ []) :
    unescapeElements sep ([sep].intercalate (es.map (escapeElement sep))) = es := by
  induction es with
  | nil => exact absurd rfl hne
  | cons e es ih =>
    cases es with
    | nil =>
      have h := unescapeElements_escapeElement_append sep e []
      rw [List.append_nil, unescapeElements, foldr_consFirst, List.append_nil] at h
      rw [List.map_singleton, List.intercalate_singleton, h]
    | cons e' es =>
      have hsep : sep ≠ '\\' := hsep.resolve_right (by simp)
      have hrest := ih (.inl hsep) (List.cons_ne_nil e' es)
      rw [List.map_cons, List.map_cons, List.intercalate_cons_cons, ← List.map_cons,
        List.append_assoc, List.singleton_append, unescapeElements_escapeElement_append,
        unescapeElements_cons hsep, if_pos ⟨rfl, hsep⟩, hrest, foldr_consFirst, List.append_nil]

/-- The body of a list of texts is read as its elements. -/
theorem textElements_chars {sep : Char} (ss : List String) (hsep : sep ≠ '\\' ∨ ss.length ≤ 1) :
    textElements sep ((Datum.texts ss).chars sep) = ss.map String.toList := by
  by_cases hlone : ss = [""]
  · rw [hlone]
    rfl
  by_cases hnil : ss = []
  · rw [hnil]
    rfl
  have hread : unescapeElements sep ([sep].intercalate (ss.map fun s => escapeElement sep s.toList)) =
      ss.map String.toList := by
    have h := unescapeElements_intercalate (ss.map String.toList) (by rwa [List.length_map])
      (by simpa using hnil)
    rwa [List.map_map] at h
  -- A list is known from its elements, so one that reads as a lone element is that element.
  have hinj : ∀ {cs : List Char}, ss.map String.toList = [cs] → ss = [String.ofList cs] := by
    intro cs h
    have h' := congrArg (List.map String.ofList) h
    simpa using h'
  simp only [Datum.chars, if_neg hlone]
  generalize hbody : [sep].intercalate (ss.map fun s => escapeElement sep s.toList) = body at hread
  -- The two bodies with a meaning of their own are those of no other list.
  have hempty : body ≠ [] := by
    rintro rfl
    exact hlone (hinj hread.symm)
  have hbackslash : body ≠ loneEmpty := by
    rintro rfl
    have hone : unescapeElements sep loneEmpty = [['\\']] := by
      simp [loneEmpty, unescapeElements, consFirst]
    have hss : ss = [String.ofList ['\\']] := hinj (hread.symm.trans hone)
    rw [hss] at hbody
    have hlength := congrArg List.length hbody
    simp [escapeElement, loneEmpty] at hlength
  rw [textElements, if_neg hempty, if_neg hbackslash, hread]

/-! ## Lists of numbers -/

/-- Joined texts are cut where they were joined, and wherever they hold the separator themselves. -/
theorem splitOn_intercalate_flatMap {sep : Char} {es : List (List Char)} (hne : es ≠ []) :
    ([sep].intercalate es).splitOn sep = es.flatMap (List.splitOn sep) := by
  induction es with
  | nil => exact absurd rfl hne
  | cons e es ih =>
    cases es with
    | nil => rw [List.intercalate_singleton, List.flatMap_cons, List.flatMap_nil, List.append_nil]
    | cons e' es =>
      rw [List.intercalate_cons_cons, List.append_assoc, List.singleton_append,
        List.splitOn_append_cons_self, ih (List.cons_ne_nil e' es), ← List.flatMap_cons]

/-- So are the elements of a body, of which none is blank. -/
theorem plainElements_intercalate_flatMap {sep : Char} {es : List (List Char)}
    (hblank : ∀ e ∈ es, e.all isBlank = false) :
    plainElements sep ([sep].intercalate es) = es.flatMap (List.splitOn sep) := by
  cases es with
  | nil => rfl
  | cons e es =>
    have hall : ([sep].intercalate (e :: es)).all isBlank = false := by
      have he := hblank e List.mem_cons_self
      cases es with
      | nil => rwa [List.intercalate_singleton]
      | cons e' es => rw [List.intercalate_cons_cons, List.all_append, List.all_append, he,
          Bool.false_and, Bool.false_and]
    rw [plainElements, if_neg (by rw [hall]; exact Bool.false_ne_true)]
    exact splitOn_intercalate_flatMap (List.cons_ne_nil e es)

/-- Without the separator in them, they come out as they were. -/
theorem plainElements_intercalate {sep : Char} {es : List (List Char)} (hsep : ∀ e ∈ es, sep ∉ e)
    (hblank : ∀ e ∈ es, e.all isBlank = false) :
    plainElements sep ([sep].intercalate es) = es := by
  rw [plainElements_intercalate_flatMap hblank,
    List.flatMap_congr fun e he => List.splitOn_eq_singleton (hsep e he), List.flatMap_singleton']

/-! ## Data -/

/-- A datum that its body under a separator tells apart from all others of its kind. -/
def Datum.Legible (sep : Char) : Datum → Prop
  | empty | int _ | text _ => True
  | float x => x.isNaN = false
  | ints ns => ∀ n ∈ ns, sep ∉ Numeral.int32Chars n
  | floats xs => ∀ x ∈ xs, x.isNaN = false ∧ sep ∉ x.chars
  | texts _ => sep ≠ '\\'

/-- A datum with no number that is none. -/
def Datum.NaNFree : Datum → Prop
  | float x => x.isNaN = false
  | floats xs => ∀ x ∈ xs, x.isNaN = false
  | _ => True

/-- A datum whose elements a separator parts: none of its numbers has that character, or it has no two
    texts that a backslash would have to part. -/
def Datum.Parted (sep : Char) : Datum → Prop
  | ints ns => ∀ n ∈ ns, sep ∉ Numeral.int32Chars n
  | floats xs => ∀ x ∈ xs, sep ∉ x.chars
  | texts ss => sep ≠ '\\' ∨ ss.length ≤ 1
  | _ => True

theorem Datum.Legible.nanFree {sep : Char} {d : Datum} (h : d.Legible sep) : d.NaNFree := by
  cases d with
  | float x => exact h
  | floats xs => exact fun x hx => (h x hx).1
  | _ => trivial

theorem Datum.Legible.parted {sep : Char} {d : Datum} (h : d.Legible sep) : d.Parted sep := by
  cases d with
  | ints ns => exact h
  | floats xs => exact fun x hx => (h x hx).2
  | texts ss => exact .inl h
  | _ => trivial

theorem all_isBlank_of_isNumeral {cs : List Char} (h : Binary32.IsNumeral cs) (hne : cs ≠ []) :
    cs.all isBlank = false := by
  cases cs with
  | nil => exact absurd rfl hne
  | cons c cs =>
    rw [List.all_cons, Binary32.isBlank_of_isNumeralChar (h c List.mem_cons_self), Bool.false_and]

theorem intOrZero_int32Chars (n : Int32) : intOrZero (Numeral.int32Chars n) = n := by
  rw [intOrZero, Binary32.stripBy_isBlank_of_isNumeral (Binary32.isNumeral_int32Chars n),
    Numeral.int32?_int32Chars, Option.getD_some]

theorem floatOrZero_chars {x : Binary32} (h : x.isNaN = false) : floatOrZero x.chars = x := by
  rw [floatOrZero, Binary32.stripBy_isBlank_of_isNumeral (Binary32.isNumeral_chars h),
    Binary32.ofChars?_chars h, Option.getD_some]

theorem chars_ne_nil (x : Binary32) : x.chars ≠ [] := by
  intro hnil
  cases h : x.isNaN with
  | false =>
    have hread := Binary32.ofChars?_chars h
    rw [hnil] at hread
    cases hread
  | true =>
    rw [Binary32.chars, if_pos h] at hnil
    exact absurd hnil (by decide)

/-- Joined texts without blanks have none at their ends, even if a blank joins them. -/
theorem stripBy_intercalate {sep : Char} {es : List (List Char)}
    (h : ∀ e ∈ es, (∀ c ∈ e, isBlank c = false) ∧ e ≠ []) :
    stripBy isBlank ([sep].intercalate es) = [sep].intercalate es := by
  have hstops : ∀ e : List Char, (∀ c ∈ e, isBlank c = false) →
      StopsBy isBlank e ∧ StopsBy isBlank e.reverse := fun e he =>
    ⟨stopsBy_of_forall he, stopsBy_of_forall fun c hc => he c (List.mem_reverse.1 hc)⟩
  -- From the back, the text stops where its last element does.
  have hback : ∀ es : List (List Char), (∀ e ∈ es, (∀ c ∈ e, isBlank c = false) ∧ e ≠ []) → es ≠ [] →
      StopsBy isBlank ([sep].intercalate es).reverse ∧ [sep].intercalate es ≠ [] := by
    intro es
    induction es with
    | nil => exact fun _ hne => absurd rfl hne
    | cons e es ih =>
      intro h _
      cases es with
      | nil =>
        obtain ⟨he, hne⟩ := h e List.mem_cons_self
        rw [List.intercalate_singleton]
        exact ⟨(hstops e he).2, hne⟩
      | cons e' es =>
        obtain ⟨hstop, hne⟩ :=
          ih (fun x hx => h x (List.mem_cons_of_mem e hx)) (List.cons_ne_nil e' es)
        rw [List.intercalate_cons_cons, List.reverse_append]
        refine ⟨stopsBy_append (by simpa using hne) hstop _, ?_⟩
        exact List.append_ne_nil_of_right_ne_nil _ hne
  cases es with
  | nil => rfl
  | cons e es =>
    obtain ⟨he, hne⟩ := h e List.mem_cons_self
    refine stripBy_eq_self ?_ (hback (e :: es) h (List.cons_ne_nil e es)).1
    cases es with
    | nil =>
      rw [List.intercalate_singleton]
      exact (hstops e he).1
    | cons e' es =>
      rw [List.intercalate_cons_cons, List.append_assoc]
      exact stopsBy_append hne (hstops e he).1 _

/-- Numbers joined with a separator that their texts do not hold are read back one by one. -/
theorem plainElements_numerals {α : Type} {sep : Char} {write : α → List Char} {ns : List α}
    (hsep : ∀ n ∈ ns, sep ∉ write n)
    (h : ∀ n ∈ ns, Binary32.IsNumeral (write n) ∧ write n ≠ []) :
    plainElements sep ([sep].intercalate (ns.map write)) = ns.map write := by
  refine plainElements_intercalate (fun e he => ?_) fun e he => ?_
  · obtain ⟨n, hn, rfl⟩ := List.mem_map.1 he
    exact hsep n hn
  · obtain ⟨n, hn, rfl⟩ := List.mem_map.1 he
    exact all_isBlank_of_isNumeral (h n hn).1 (h n hn).2

theorem map_map_eq_self {α β : Type} {read : β → α} {write : α → β} {xs : List α}
    (h : ∀ x ∈ xs, read (write x) = x) : (xs.map write).map read = xs := by
  rw [List.map_map]
  exact (List.map_congr_left h).trans (List.map_id xs)

theorem Value.ofBody_ofList (kind : Kind) (cs : List Char) (sep : Char) :
    Value.ofBody kind (String.ofList cs) sep =
      Value.ofChars kind sep (if kind.keepsBlanks then cs else stripBy isBlank cs) := by
  unfold ofBody ofText trim
  split <;> simp only [String.toList_ofList]

/-- A datum without a number that is none is what its text says, if its elements are parted. -/
theorem Datum.ofChars_chars {d : Datum} {sep : Char} (h : d.NaNFree) (hp : d.Parted sep) :
    Value.ofChars d.kind sep (d.chars sep) = .datum d := by
  cases d with
  | empty => rfl
  | int n =>
    show Value.datum (.int (intOrZero (Numeral.int32Chars n))) = _
    rw [intOrZero_int32Chars]
  | float x =>
    show Value.datum (.float (floatOrZero x.chars)) = _
    rw [floatOrZero_chars h]
  | text s =>
    show Value.datum (.text (String.ofList s.toList)) = _
    rw [String.ofList_toList]
  | ints ns =>
    have hread := plainElements_numerals hp fun n _ =>
      ⟨Binary32.isNumeral_int32Chars n, Numeral.int32Chars_ne_nil n⟩
    show Value.datum (.ints ((plainElements sep
      ([sep].intercalate (ns.map Numeral.int32Chars))).map intOrZero)) = _
    rw [hread, map_map_eq_self fun n _ => intOrZero_int32Chars n]
  | floats xs =>
    have hread := plainElements_numerals hp fun x hx =>
      ⟨Binary32.isNumeral_chars (h x hx), chars_ne_nil x⟩
    show Value.datum (.floats ((plainElements sep
      ([sep].intercalate (xs.map Binary32.chars))).map floatOrZero)) = _
    rw [hread, map_map_eq_self fun x hx => floatOrZero_chars (h x hx)]
  | texts ss =>
    show Value.datum (.texts ((textElements sep ((Datum.texts ss).chars sep)).map String.ofList)) = _
    rw [textElements_chars ss hp, map_map_eq_self fun s _ => String.ofList_toList]

/-- A datum has no blanks at the ends of its text, if blanks would not be kept. -/
theorem Datum.stripBy_chars {d : Datum} (hkind : d.kind.keepsBlanks = false) (sep : Char) :
    stripBy isBlank (d.chars sep) = d.chars sep := by
  have hint : ∀ (n : Int32), ∀ c ∈ Numeral.int32Chars n, isBlank c = false := fun n c hc =>
    Binary32.isBlank_of_isNumeralChar (Binary32.isNumeral_int32Chars n c hc)
  cases d with
  | empty => rfl
  | int n => exact stripBy_of_forall (hint n)
  | float x => exact stripBy_of_forall fun c hc => Binary32.isBlank_of_mem_chars hc
  | ints ns =>
    refine stripBy_intercalate fun e he => ?_
    obtain ⟨n, -, rfl⟩ := List.mem_map.1 he
    exact ⟨hint n, Numeral.int32Chars_ne_nil n⟩
  | floats xs =>
    refine stripBy_intercalate fun e he => ?_
    obtain ⟨x, -, rfl⟩ := List.mem_map.1 he
    exact ⟨fun c hc => Binary32.isBlank_of_mem_chars hc, chars_ne_nil x⟩
  | text s => cases hkind
  | texts ss => cases hkind

/-- So markup has nothing to cut off it. -/
theorem Value.ofBody_datum (d : Datum) (sep : Char) :
    Value.ofBody d.kind (String.ofList (d.chars sep)) sep = Value.ofChars d.kind sep (d.chars sep) := by
  rw [Value.ofBody_ofList]
  split
  · rfl
  · rename_i hkind
    rw [Datum.stripBy_chars (Bool.eq_false_iff.2 hkind)]

/-- A legible datum is what its body in markup says. -/
theorem Value.ofBody_chars {d : Datum} {sep : Char} (h : d.Legible sep) :
    Value.ofBody d.kind (String.ofList (d.chars sep)) sep = .datum d := by
  rw [Value.ofBody_datum, Datum.ofChars_chars h.nanFree h.parted]

/-! ## Values -/

/-- A value that its text under a separator tells apart from all others of its kind. -/
def Value.Legible (sep : Char) : Value → Prop
  | datum d => d.Legible sep
  | container names => ∀ name ∈ names, name ≠ "" ∧ trim name = name ∧ sep ∉ name.toList

/-- A name without blanks around it that is not empty is not blank. -/
theorem all_isBlank_of_tight {cs : List Char} (hne : cs ≠ []) (htight : stripBy isBlank cs = cs) :
    cs.all isBlank = false := by
  refine Bool.eq_false_iff.2 fun hall => hne ?_
  rw [← htight, stripBy, List.dropWhile_eq_nil_iff.2 (List.all_eq_true.1 hall)]
  rfl

theorem Value.ofChars_container {names : List String} {sep : Char} (h : (container names).Legible sep) :
    ofChars .container sep ((container names).chars sep) = container names := by
  have htight : ∀ name ∈ names, stripBy isBlank name.toList = name.toList := fun name hname =>
    String.ofList_inj.1 ((h name hname).2.1.trans String.ofList_toList.symm)
  have hread : plainElements sep ([sep].intercalate (names.map String.toList)) =
      names.map String.toList := by
    refine plainElements_intercalate (fun e he => ?_) fun e he => ?_
    · obtain ⟨name, hname, rfl⟩ := List.mem_map.1 he
      exact (h name hname).2.2
    · obtain ⟨name, hname, rfl⟩ := List.mem_map.1 he
      exact all_isBlank_of_tight (by simpa using (h name hname).1) (htight name hname)
  have hstrip : (names.map String.toList).map (stripBy isBlank) = names.map String.toList := by
    rw [List.map_map]
    exact List.map_congr_left htight
  have hfilter : (names.map String.toList).filter (· ≠ []) = names.map String.toList := by
    refine List.filter_eq_self.2 fun e he => decide_eq_true ?_
    obtain ⟨name, hname, rfl⟩ := List.mem_map.1 he
    simpa using (h name hname).1
  show container ((((plainElements sep ([sep].intercalate (names.map String.toList))).map
    (stripBy isBlank)).filter (· ≠ [])).map String.ofList) = _
  rw [hread, hstrip, hfilter, map_map_eq_self fun name _ => String.ofList_toList]

/-- A legible value is what its text says. -/
theorem Value.ofText_render {v : Value} {sep : Char} (h : v.Legible sep) :
    Value.ofText v.kind (v.render sep) sep = v := by
  rw [ofText, render, String.toList_ofList]
  cases v with
  | datum d => exact Datum.ofChars_chars (Datum.Legible.nanFree h) (Datum.Legible.parted h)
  | container names => exact ofChars_container h

instance (sep : Char) (d : Datum) : Decidable (d.Legible sep) :=
  match d with
  | .empty | .int _ | .text _ => isTrue trivial
  | .float x => inferInstanceAs (Decidable (x.isNaN = false))
  | .ints ns => List.decidableBAll (fun n => sep ∉ Numeral.int32Chars n) ns
  | .floats xs => List.decidableBAll (fun x : Binary32 => x.isNaN = false ∧ sep ∉ x.chars) xs
  | .texts _ => inferInstanceAs (Decidable (sep ≠ '\\'))

instance (sep : Char) (v : Value) : Decidable (v.Legible sep) :=
  match v with
  | .datum d => inferInstanceAs (Decidable (d.Legible sep))
  | .container names =>
    List.decidableBAll (fun name => name ≠ "" ∧ trim name = name ∧ sep ∉ name.toList) names

/-- Both zeros, the smallest number and infinity, parted by blanks. -/
def Value.parted : Value := datum (.floats [⟨0⟩, ⟨0x80000000⟩, ⟨1⟩, ⟨0x7f800000⟩])

/-- Texts that are empty, or hold the separator, what escapes it, or markup. -/
def Value.entangled : Value := datum (.texts ["", "a;b", "\\", "<c>\\;", ""])

theorem Value.ofText_render_parted :
    (parted.render ' ' = "0.0 -0.0 1e-45 inf" ∧
      ofText .floats (parted.render ' ') ' ' = parted) ∧
    (entangled.render ';' = ";a\\;b;\\\\;<c>\\\\\\;;" ∧
      ofText .texts (entangled.render ';') ';' = entangled) ∧
    ofText .container ((container ["left", "right.2"]).render '|') '|' =
      container ["left", "right.2"] :=
  ⟨⟨by decide +kernel, ofText_render (v := parted) (by decide +kernel)⟩,
    ⟨by decide +kernel, ofText_render (v := entangled) (by decide +kernel)⟩,
    ofText_render (v := container ["left", "right.2"]) (by decide +kernel)⟩

end Lockstep
