import Lockstep.Proofs.Registry.Separators
import Lockstep.Proofs.Value.Inference

/- Elements of which the kind is guessed.

   1. What is added at a path is found there: the datum itself, or a container (`exists_of_addAt`).
   2. So an element without a `type` attribute and without children leaves what its text is guessed
      to be, wherever it is added (`exists_of_load`).
   3. Its text is kept if and only if it is guessed right, with the separator among its attributes
      (`inferred_kept_iff`). Nothing refuses a text that is not (`inferred_kept_fails`). -/
namespace Lockstep.Registry
open Text Markup Forest

/-! ## What is added is found -/

section
variable {r r' : Registry} {p : Path} {v : Value}

/-- A value that was added is the datum that was given, or a container if one was given. -/
theorem exists_of_addAt (hne : p ≠ []) (h : r.addAt p v = .ok r') :
    ∃ n, r'.forest.get? p = some n ∧ n.kind = v.kind ∧ ∀ d, v = .datum d → n.value = .datum d := by
  obtain ⟨-, ⟨n, hn, hkind, rfl⟩ | ⟨hnone, grown, hgrown, rfl⟩⟩ := addAt_cases h
  · refine ⟨n.assign v, ?_, ?_, ?_⟩
    · rw [get?_update_self (Node.name_assign v), hn, Option.map_some]
    · rw [← hkind]
      cases v <;> cases n <;> first | rfl | exact hkind.symm
    · rintro d rfl
      cases n with
      | leaf => rfl
      | branch => exact absurd hkind.symm (Datum.kind_ne_container d)
  · obtain ⟨leaf, hleaf⟩ := get?_plant hne hnone hgrown
    refine ⟨Node.fresh leaf v, hleaf, Node.kind_fresh leaf v, ?_⟩
    rintro d rfl
    rfl

/-! ## Elements without a kind -/

/-- Markup is what an angle bracket stands in front of. -/
theorem infer_eq_container_iff {text : String} :
    Kind.infer text = .container ↔ (stripBy isBlank text.toList).head? = some '<' := by
  constructor
  · intro h
    unfold Kind.infer at h
    dsimp only at h
    grind
  · intro hhead
    have hint : isInt (stripBy isBlank text.toList) = false := by
      by_contra h
      exact head?_ne_of_isMarks (isMarks_of_isInt (Bool.not_eq_false _ ▸ h)) hhead
    have hfloat : isFloat (stripBy isBlank text.toList) = false := by
      by_contra h
      exact head?_ne_of_isMarks (isMarks_of_isFloat (Bool.not_eq_false _ ▸ h)) hhead
    rw [Kind.infer, hint, hfloat, hhead]
    rfl

variable {name scope : String} {attributes : Attributes} {text : String} {e : Element}

/-- What is added for an element without children whose kind is guessed. -/
def guessed (attributes : Attributes) (text : String) : Value :=
  match Kind.infer text with
  | .container => .container []
  | kind => Value.ofBody kind text (separatorOf (keptAttributes attributes))

theorem kind_guessed (attributes : Attributes) (text : String) :
    (guessed attributes text).kind = Kind.infer text := by
  unfold guessed
  split
  · rename_i hkind
    rw [hkind]
    rfl
  · exact Value.kind_ofBody _ text _

theorem guessed_of_ne (h : Kind.infer text ≠ .container) (attributes : Attributes) :
    guessed attributes text =
      Value.ofBody (Kind.infer text) text (separatorOf (keptAttributes attributes)) := by
  unfold guessed
  split
  · rename_i hkind
    exact absurd hkind h
  · rfl

/-- Such an element is one value that is added, and attributes that are set. -/
theorem load_guessed (r : Registry) (name scope text : String) {attributes : Attributes}
    (bodyStart bodyEnd : Nat) (hkind : attributes.get? kindKey = none) :
    r.load scope ⟨name, attributes, text, [], bodyStart, bodyEnd⟩ =
      match r.addIn name scope (guessed attributes text) with
      | .error err => (.error err, r)
      | .ok (p, added) => (.ok p, added.setAttributesAt p (keptAttributes attributes)) := by
  have hguess : elementKind attributes text [] = .ok (Kind.infer text) := by
    rw [elementKind, hkind]
    rfl
  rw [load, hguess, guessed]
  cases Kind.infer text with
  | container =>
    dsimp only
    cases r.addIn name scope (.container []) with
    | error err => rfl
    | ok added =>
      dsimp only
      rw [loadAll]
  | _ => rfl

/-- It leaves an entry of the kind that its text is guessed to be, with what is read of the text for that
    kind. -/
theorem exists_of_load (hkind : e.attribute? kindKey = none) (hchildren : e.children = [])
    (h : r.load scope e = (.ok p, r')) :
    ∃ v attributes, r'.entry? p = some ⟨v, attributes⟩ ∧ v.kind = Kind.infer e.text ∧
      ∀ d, guessed e.attributes e.text = .datum d → v = .datum d := by
  obtain ⟨name, attributes, text, children, bodyStart, bodyEnd⟩ := e
  obtain rfl : children = [] := hchildren
  rw [load_guessed r name scope text bodyStart bodyEnd hkind] at h
  split at h
  · cases h
  · rename_i added hadd
    cases h
    obtain ⟨hp, hat⟩ := addIn_eq_ok.1 hadd
    obtain ⟨n, hn, hnkind, hdatum⟩ := exists_of_addAt (Path.ne_nil_of_ofName hp) hat
    refine ⟨n.value, n.attributes.setAll (keptAttributes attributes), ?_, ?_, hdatum⟩
    · unfold entry?
      rw [setAttributesAt, get?_update_self (Node.name_mapAttributes _), hn, Option.map_some,
        Option.map_some]
      cases n <;> rfl
    · exact hnkind.trans (kind_guessed attributes text)

/-- An element without a `type` attribute and without children, that is added to a registry, wherever it
    stands. The entry it leaves is a container if and only if its text, blanks aside, begins with an angle
    bracket; and it has kept the text if and only if that was guessed right, for the separator that the
    element asks for. -/
theorem inferred_kept_iff (hkind : e.attribute? kindKey = none) (hchildren : e.children = [])
    (h : r.load scope e = (.ok p, r')) :
    ∃ v attributes, r'.entry? p = some ⟨v, attributes⟩ ∧
      (v.kind = .container ↔ (stripBy isBlank e.text.toList).head? = some '<') ∧
      (v.Keeps (separatorOf (keptAttributes e.attributes)) e.text ↔
        Guessable (separatorOf (keptAttributes e.attributes)) e.text) := by
  obtain ⟨v, attributes, hentry, hv, hdatum⟩ := exists_of_load hkind hchildren h
  refine ⟨v, attributes, hentry, hv ▸ infer_eq_container_iff, ?_⟩
  rw [← keeps_ofBody_infer_iff]
  cases v with
  | container names =>
    -- A container keeps nothing of a text, and none was read from it.
    have hinfer : Kind.infer e.text = .container := hv.symm
    rw [hinfer, ofBody_trimmed rfl]
    rfl
  | datum d =>
    have hinfer : Kind.infer e.text ≠ .container := hv ▸ d.kind_ne_container
    have hguess := guessed_of_ne hinfer e.attributes
    cases hread : guessed e.attributes e.text with
    | container names =>
      have hkind := congrArg Value.kind hread
      rw [kind_guessed] at hkind
      exact absurd hkind hinfer
    | datum read =>
      rw [← hguess, hread, Value.datum.inj (hdatum read hread)]

end

/-- A list with blanks in it is kept, but not when the blank is the separator that it is read by. -/
theorem inferred_kept_list :
    (∃ v attributes, Registry.entry? ((empty "index").load "/" ⟨"a", [], " 1, -2", [], 3, 10⟩).2 ["a"] =
        some ⟨v, attributes⟩ ∧ v.kind ≠ .container ∧ v.Keeps ',' " 1, -2") ∧
      ∃ v attributes, Registry.entry?
        ((empty "index").load "/" ⟨"a", [("separator", " ")], " 1, -2", [], 17, 24⟩).2 ["a"] =
          some ⟨v, attributes⟩ ∧ ¬ v.Keeps ' ' " 1, -2" := by
  have hload : (empty "index").load "/" ⟨"a", [], " 1, -2", [], 3, 10⟩ =
      (.ok ["a"], ((empty "index").load "/" ⟨"a", [], " 1, -2", [], 3, 10⟩).2) :=
    Prod.ext (by decide +kernel) rfl
  have hload' : (empty "index").load "/" ⟨"a", [("separator", " ")], " 1, -2", [], 17, 24⟩ =
      (.ok ["a"], ((empty "index").load "/" ⟨"a", [("separator", " ")], " 1, -2", [], 17, 24⟩).2) :=
    Prod.ext (by decide +kernel) rfl
  constructor
  · obtain ⟨v, attributes, hentry, hmarkup, hkeeps⟩ := inferred_kept_iff rfl rfl hload
    exact ⟨v, attributes, hentry, mt hmarkup.1 (by decide +kernel), hkeeps.2 (by decide +kernel)⟩
  · obtain ⟨v, attributes, hentry, -, hkeeps⟩ := inferred_kept_iff rfl rfl hload'
    exact ⟨v, attributes, hentry, mt hkeeps.1 (by decide +kernel)⟩

/-- A token that is no numeral is read as zero in a list that begins with one; an escaped angle bracket
    takes the text with it; and a list is not read by the commas that made it one. -/
theorem inferred_kept_fails :
    Registry.entry? ((empty "index").addMarkup "<a>1,2.5</a>").2 ["a"] = some ⟨.datum (.ints [1, 0]), []⟩ ∧
    Registry.entry? ((empty "index").addMarkup "<a>&lt;x</a>").2 ["a"] = some ⟨.container [], []⟩ ∧
    Registry.entry? ((empty "index").addMarkup "<a separator=\";\">1,2</a>").2 ["a"] =
      some ⟨.datum (.ints [0]), [("separator", ";")]⟩ ∧
    ¬ ∀ {text : String} {e : Element} {p : Path} {r' : Registry}, parseFirst text = .ok e →
      e.attribute? kindKey = none → e.children = [] →
      (empty "index").addMarkup text = (.ok p, r') →
      ∃ v attributes, r'.entry? p = some ⟨v, attributes⟩ ∧
        v.Keeps (separatorOf (keptAttributes e.attributes)) e.text := by
  have hmixed : Registry.entry? ((empty "index").addMarkup "<a>1,2.5</a>").2 ["a"] =
      some ⟨.datum (.ints [1, 0]), []⟩ := by decide +kernel
  refine ⟨hmixed, by decide +kernel, by decide +kernel, fun h => ?_⟩
  have hparse : (parseFirst "<a>1,2.5</a>").map
      (fun e => (e.attribute? kindKey, e.children.isEmpty, e.text)) = .ok (none, true, "1,2.5") := by
    decide +kernel
  obtain ⟨e, he⟩ : ∃ e, parseFirst "<a>1,2.5</a>" = .ok e := by
    cases he : parseFirst "<a>1,2.5</a>" with
    | error fault => exact absurd (he ▸ hparse) nofun
    | ok e => exact ⟨e, rfl⟩
  rw [he] at hparse
  obtain ⟨hkind, hchildren, htext⟩ : e.attribute? kindKey = none ∧ e.children = [] ∧
      e.text = "1,2.5" := by simpa using Except.ok.inj hparse
  have hadd : (empty "index").addMarkup "<a>1,2.5</a>" =
      (.ok ["a"], ((empty "index").addMarkup "<a>1,2.5</a>").2) :=
    Prod.ext (by decide +kernel) rfl
  obtain ⟨v, attributes, hentry, hkeeps⟩ := h he hkind hchildren hadd
  obtain ⟨rfl, -⟩ : .datum (.ints [1, 0]) = v ∧ [] = attributes := by
    simpa using hmixed.symm.trans hentry
  rw [htext] at hkeeps
  -- The second token is no integer, so no integer stands for it.
  obtain ⟨hspelt, -⟩ := hkeeps
  have htokens : tokens "1,2.5" = [['1'], ['2', '.', '5']] := by decide +kernel
  rw [htokens] at hspelt
  have hsecond := (List.forall₂_cons.1 (List.forall₂_cons.1 hspelt).2).1
  exact absurd hsecond (by decide +kernel)

end Lockstep.Registry
