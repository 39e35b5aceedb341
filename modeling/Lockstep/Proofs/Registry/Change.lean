import Mathlib.Logic.Relation
import Lockstep.Proofs.Registry.Path
import Lockstep.Registry.Operation

/- What operations do to a registry, one change at a time.

   1. A `Change` places a value at a path or sets attributes at one. Everything but the forest stays
      as it is (`Change.keeps`).
   2. Adding, assigning and loading are `Changes` one after the other, also where a load stops halfway
      (`changes_load`, `changes_loadAll`).
   3. An operation makes changes, or it pushes or pops a namespace, or it saves or restores the forest
      (`perform_cases`). So what a change keeps, and these four, is kept in every run. -/
namespace Lockstep.Registry
open Relation

/-- A value placed at a path, or attributes set at one. -/
inductive Change : Registry → Registry → Prop
  | place {r r' : Registry} {p : Path} {v : Value} (hp : p.WellFormed) (hne : p ≠ [])
    (h : r.addAt p v = .ok r') : Change r r'
  | setAttributes {r : Registry} (p : Path) {pairs : Attributes}
    (h : ∀ pair ∈ pairs, pair.1 ≠ kindKey) : Change r (r.setAttributesAt p pairs)

/-- Changes one after the other. -/
abbrev Changes : Registry → Registry → Prop := ReflTransGen Change

section
variable {r r' : Registry} {p : Path} {v : Value} {name scope : String}

/-! ## What each call comes to -/

/-- A value is placed on an entry of its kind, or planted where there is none. -/
theorem addAt_cases (h : r.addAt p v = .ok r') :
    r.checkChildren p (childNames v) = .ok () ∧
      ((∃ n, r.forest.get? p = some n ∧ n.kind = v.kind ∧
          r' = { r with forest := r.forest.update (Node.assign v) p }) ∨
        r.forest.get? p = none ∧ ∃ grown, r.forest.plant v [] p = .ok grown ∧
          r' = { r with forest := grown }) := by
  unfold addAt at h
  split at h
  · cases h
  · rename_i hcheck
    refine ⟨hcheck, ?_⟩
    split at h
    · rename_i n hn
      split at h
      · rename_i hkind
        exact .inl ⟨n, hn, hkind, (Except.ok.inj h).symm⟩
      · cases h
    · rename_i hnone
      split at h
      · cases h
      · rename_i grown hgrown
        exact .inr ⟨hnone, grown, hgrown, (Except.ok.inj h).symm⟩

theorem addIn_eq_ok :
    r.addIn name scope v = .ok (p, r') ↔ Path.ofName name scope = .ok p ∧ r.addAt p v = .ok r' := by
  constructor
  · intro h
    unfold addIn at h
    split at h
    · cases h
    · rename_i hp
      split at h
      · cases h
      · rename_i hadd
        cases h
        exact ⟨hp, hadd⟩
  · rintro ⟨hp, hadd⟩
    simp only [addIn, hp, hadd]

theorem exists_of_assign {assignment : String} (h : r.assign assignment = .ok (p, r')) :
    ∃ name v, Path.ofName name r.namespaceText = .ok p ∧ r.addAt p v = .ok r' := by
  simp only [assign] at h
  split at h
  · cases h
  · split at h
    · cases h
    · rename_i hp
      split at h
      · cases h
      · rename_i hadd
        cases h
        exact ⟨_, _, hp, hadd⟩

theorem exists_of_setAttribute {key text : String} (h : r.setAttribute name key text = .ok r') :
    key ≠ kindKey ∧ ∃ p, r.resolve name r.namespaceText = .ok p ∧
      r' = r.setAttributesAt p [(key, text)] := by
  unfold setAttribute at h
  split at h
  · cases h
  · rename_i hkey
    split at h
    · cases h
    · rename_i p hp
      exact ⟨hkey, p, hp, (Except.ok.inj h).symm⟩

theorem ne_kindKey_of_mem_kept {attributes : Attributes} {pair : String × String}
    (h : pair ∈ keptAttributes attributes) : pair.1 ≠ kindKey :=
  of_decide_eq_true (List.mem_filter.1 h).2

/-! ## Changes -/

theorem changes_addAt (hp : Path.ofName name scope = .ok p) (h : r.addAt p v = .ok r') :
    Changes r r' :=
  .single (.place (Path.wellFormed_of_ofName hp) (Path.ne_nil_of_ofName hp) h)

theorem changes_addIn (h : r.addIn name scope v = .ok (p, r')) : Changes r r' :=
  changes_addAt (addIn_eq_ok.1 h).1 (addIn_eq_ok.1 h).2

theorem changes_assign {assignment : String} (h : r.assign assignment = .ok (p, r')) :
    Changes r r' := by
  obtain ⟨name, v, hp, hadd⟩ := exists_of_assign h
  exact changes_addAt hp hadd

theorem changes_setAttribute {key text : String} (h : r.setAttribute name key text = .ok r') :
    Changes r r' := by
  obtain ⟨hkey, p, -, rfl⟩ := exists_of_setAttribute h
  refine .single (.setAttributes p fun pair hpair => ?_)
  rw [List.mem_singleton.1 hpair]
  exact hkey

theorem changes_load_datum (r : Registry) (name scope : String) (v : Value) (attributes : Attributes) :
    Changes r (match r.addIn name scope v with
      | .error e => (.error e, r)
      | .ok (p, r') => (.ok p, r'.setAttributesAt p (keptAttributes attributes)) :
        Except Error Path × Registry).2 := by
  cases h : r.addIn name scope v with
  | error e => exact .refl
  | ok added =>
    exact (changes_addIn (p := added.1) h).tail (.setAttributes added.1 fun _ => ne_kindKey_of_mem_kept)

end

mutual

/-- Loading an element makes changes, whatever it ends with. -/
theorem changes_load (r : Registry) (scope : String) (e : Markup.Element) :
    Changes r (r.load scope e).2 := by
  obtain ⟨name, attributes, text, children, bodyStart, bodyEnd⟩ := e
  simp only [load]
  cases elementKind attributes text children with
  | error e => exact .refl
  | ok kind =>
    cases kind with
    | container =>
      cases hadd : r.addIn name scope (.container []) with
      | error e => exact .refl
      | ok added =>
        have hall := (changes_addIn (p := added.1) hadd).trans
          (changes_loadAll added.2 added.1.scopeText children)
        simp only
        cases h : added.2.loadAll added.1.scopeText children with
        | mk outcome r' =>
          rw [h] at hall
          -- The container and the children before an error stay.
          cases outcome with
          | error e => exact hall
          | ok paths => exact hall.tail (.setAttributes _ fun _ => ne_kindKey_of_mem_kept)
    | _ => exact changes_load_datum r name scope _ _

/-- The same for elements one after the other. -/
theorem changes_loadAll (r : Registry) (scope : String) (es : List Markup.Element) :
    Changes r (r.loadAll scope es).2 := by
  cases es with
  | nil => exact .refl
  | cons e es =>
    have hone := changes_load r scope e
    simp only [loadAll]
    cases h : r.load scope e with
    | mk outcome r' =>
      rw [h] at hone
      cases outcome with
      | error err => exact hone
      | ok p =>
        have hall := hone.trans (changes_loadAll r' scope es)
        simp only
        cases h' : r'.loadAll scope es with
        | mk outcome r'' =>
          rw [h'] at hall
          cases outcome <;> exact hall

end

/-! ## Operations -/

/-- What an operation leaves behind: a registry with changes, whether it fails or not, or one with
    another namespace, another saved forest, or the forest saved last. -/
theorem perform_cases (r : Registry) (op : Operation) :
    Changes r (r.perform op).2 ∨
    (∃ scope p, op = .pushNamespace scope ∧ r.validate scope = .ok p ∧
      (r.perform op).2 = { r with scopes := p :: r.scopes }) ∨
    (op = .popNamespace ∧ (r.perform op).2 = r.popNamespace) ∨
    (op = .saveState ∧ (r.perform op).2 = r.saveState) ∨
    ∃ forest saved, op = .restoreState ∧ r.saved = forest :: saved ∧
      (r.perform op).2 = { r with forest, saved } := by
  cases op with
  | add name v =>
    left
    simp only [perform, add]
    cases h : r.addIn name r.namespaceText v with
    | error e => exact .refl
    | ok added => exact changes_addIn (p := added.1) h
  | addIn name scope v =>
    left
    simp only [perform]
    cases h : r.addIn name scope v with
    | error e => exact .refl
    | ok added => exact changes_addIn (p := added.1) h
  | assign assignment =>
    left
    simp only [perform]
    cases h : r.assign assignment with
    | error e => exact .refl
    | ok added => exact changes_assign (p := added.1) h
  | addMarkup text =>
    left
    simp only [perform, addMarkup, addMarkupIn]
    cases Markup.parseFirst text with
    | error f => exact .refl
    | ok e => exact changes_load r _ e
  | addMarkupIn text scope =>
    left
    simp only [perform, addMarkupIn]
    cases Markup.parseFirst text with
    | error f => exact .refl
    | ok e => exact changes_load r _ e
  | addAllMarkup text =>
    left
    simp only [perform, addAllMarkup]
    cases Markup.parseAll text with
    | error f => exact .refl
    | ok es => exact changes_loadAll r _ es
  | setAttribute name key text =>
    left
    simp only [perform]
    cases h : r.setAttribute name key text with
    | error e => exact .refl
    | ok r' => exact changes_setAttribute h
  | pushNamespace scope =>
    simp only [perform, pushNamespace]
    cases h : r.validate scope with
    | error e => exact .inl .refl
    | ok p => exact .inr (.inl ⟨scope, p, rfl, h, rfl⟩)
  | popNamespace => exact .inr (.inr (.inl ⟨rfl, rfl⟩))
  | saveState => exact .inr (.inr (.inr (.inl ⟨rfl, rfl⟩)))
  | restoreState =>
    cases h : r.saved with
    | nil =>
      -- Nothing is saved: the operation fails, and the registry stays.
      left
      simp only [perform, restoreState, h]
      exact .refl
    | cons forest saved =>
      refine .inr (.inr (.inr (.inr ⟨forest, saved, rfl, rfl, ?_⟩)))
      simp only [perform, restoreState, h, orUnchanged]

/-- What changes leave alone: everything but the forest. -/
def Keeps (r r' : Registry) : Prop :=
  r'.name = r.name ∧ r'.scopes = r.scopes ∧ r'.saved = r.saved

theorem Change.keeps {r r' : Registry} (h : Change r r') : Keeps r r' := by
  cases h with
  | place _ _ h =>
    obtain ⟨-, ⟨n, -, -, rfl⟩ | ⟨-, grown, -, rfl⟩⟩ := addAt_cases h <;> exact ⟨rfl, rfl, rfl⟩
  | setAttributes => exact ⟨rfl, rfl, rfl⟩

theorem Changes.keeps {r r' : Registry} (h : Changes r r') : Keeps r r' := by
  induction h with
  | refl => exact ⟨rfl, rfl, rfl⟩
  | tail _ hlast ih =>
    obtain ⟨hname, hscopes, hsaved⟩ := hlast.keeps
    exact ⟨hname.trans ih.1, hscopes.trans ih.2.1, hsaved.trans ih.2.2⟩

end Lockstep.Registry
