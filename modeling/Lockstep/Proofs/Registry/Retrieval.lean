import Lockstep.Proofs.Registry.Placing
import Lockstep.Proofs.Registry.Scopes

/- What was added, looked up by the name it was added under.

   1. Adding reads a name without the blanks around it, and so does looking up when the name starts with a slash.
      Looking up a relative name takes it as it stands. So a name is `Faithful` when it starts with a slash, or
      has no blanks around it and is not empty.
   2. A name that means an entry at all is faithful (`faithful_of_resolve`): no segment is empty or has a blank.
   3. A faithful name is read alike for both, so that it finds what was added (`resolve_of_ofName`). Hence a value
      is found under the name it was added under if and only if that is faithful, and under the absolute name
      that was returned in any case (`found_iff_faithful`). -/
namespace Lockstep.Registry
open Text Registry.Path

/-- A name that is the same without what adding cuts off it: one from the root, or one with no blanks around it that
    says something. -/
def Faithful (name : String) : Prop :=
  name.toList.head? = some '/' ∨ name ≠ "" ∧ trim name = name

instance (name : String) : Decidable (Faithful name) := inferInstanceAs (Decidable (_ ∨ _))

/-- What an addition leaves at a path. -/
def stored (r : Registry) (p : Path) (v : Value) : Value :=
  match r.entry? p with
  | some e => v.onto e.value
  | none => v

section
variable {r r' : Registry} {p found s : Path} {name scope : String} {v : Value} {e : Entry}

theorem trim_eq_self_iff : trim name = name ↔ stripBy isBlank name.toList = name.toList := by
  rw [trim, ← String.toList_inj, String.toList_ofList]

/-! ## Names that mean something -/

theorem faithful_of_wellFormed (h : (relativePath name).WellFormed) : Faithful name := by
  refine .inr ⟨?_, trim_eq_self_iff.2 (stripBy_of_forall fun c hc => ?_)⟩
  · rintro rfl
    exact absurd h (by decide)
  · obtain ⟨more, hname, hmore, -⟩ := exists_stripEndBy (fun c => decide (c = '/')) name.toList
    have hjoined : (relativePath name).joined = stripEndBy (· = '/') name.toList := joined_cut _
    rw [hname, ← hjoined] at hc
    obtain hc | hc := List.mem_append.1 hc
    · obtain rfl | hc := mem_joined h hc
      · exact isBlank_slash
      · exact isBlank_of_isPlain hc
    · rw [of_decide_eq_true (hmore c hc)]
      exact isBlank_slash

/-- A name that means an entry is faithful. -/
theorem faithful_of_resolve (h : Forest.Tidy r.forest) (hfound : r.resolve name scope = .ok found) :
    Faithful name := by
  by_cases hhead : name.toList.head? = some '/'
  · exact .inl hhead
  · obtain ⟨s, hs⟩ : ∃ s, ofScope scope = .ok s := by
      cases hs : ofScope scope with
      | ok s => exact ⟨s, rfl⟩
      | error err =>
        simp only [resolve, if_neg hhead, hs] at hfound
        cases hfound
    rw [resolve_relative hhead hs] at hfound
    obtain ⟨k, -, hsearch, hcontains, -⟩ | ⟨hsearch, -⟩ := search_cases r (relativePath name) s
    · exact faithful_of_wellFormed (wellFormed_append.1 (wellFormed_of_contains h hcontains).2).2
    · rw [hsearch] at hfound
      cases hfound

/-! ## Names that are read alike -/

/-- The innermost scope comes first. -/
theorem search_of_contains {relative : Path} (h : r.contains (s ++ relative) = true) :
    r.search relative s.reverse = some (s ++ relative) := by
  obtain rfl | ⟨front, segment, rfl⟩ := List.eq_nil_or_concat s
  · rw [List.nil_append] at h
    exact if_pos h
  · rw [List.concat_eq_append] at h ⊢
    rw [search_concat, if_pos h]

/-- What a faithful name is read as when it is added is what it means, once that is there. -/
theorem resolve_of_ofName (hname : ofName name scope = .ok p) (hfaithful : Faithful name)
    (hcontains : r.contains p = true) : r.resolve name scope = .ok p := by
  by_cases hhead : name.toList.head? = some '/'
  · have hroot : ofName name "/" = .ok p :=
      (ofName_eq_ok_iff hhead).2 ((ofName_eq_ok_iff hhead).1 hname)
    simp only [resolve, if_pos hhead, hroot]
    exact if_pos hcontains
  · obtain ⟨hne, htrim⟩ := hfaithful.resolve_left hhead
    have htight := trim_eq_self_iff.1 htrim
    obtain ⟨s, hs⟩ : ∃ s, ofScope scope = .ok s := by
      cases hs : ofScope scope with
      | ok s => exact ⟨s, rfl⟩
      | error err =>
        simp only [ofName, htight, qualified, if_neg hhead, hs, Except.map] at hname
        cases hname
    obtain ⟨rfl, -⟩ := (ofName_relative_iff hs hhead (by simpa using hne) htight).1 hname
    rw [resolve_relative hhead hs, search_of_contains hcontains]

theorem getIn_of_resolve (hp : r.resolve name scope = .ok p) (he : r.entry? p = some e) :
    r.getIn name scope = .ok e.value := by
  obtain ⟨n, hn, rfl⟩ := Option.map_eq_some_iff.1 he
  simp only [getIn, entryIn, nodeIn, hp, hn]
  rfl

theorem exists_resolve_of_existsIn (h : r.existsIn name scope = true) :
    ∃ found, r.resolve name scope = .ok found := by
  cases hfound : r.resolve name scope with
  | ok found => exact ⟨found, rfl⟩
  | error err =>
    rw [existsIn, hfound] at h
    cases h

theorem exists_resolve_of_getIn {w : Value} (h : r.getIn name scope = .ok w) :
    ∃ found, r.resolve name scope = .ok found := by
  cases hfound : r.resolve name scope with
  | ok found => exact ⟨found, rfl⟩
  | error err =>
    simp only [getIn, entryIn, nodeIn, hfound] at h
    cases h

/-! ## Additions -/

theorem exists_stored (h : Reachable r) (hadd : r.addIn name scope v = .ok (p, r')) :
    ∃ e, r'.entry? p = some e ∧ e.value = r.stored p v := by
  have hplaced := placed_of_addIn h hadd
  have hlookup : ∀ r : Registry, (Table.of r.forest).lookup? p = r.entry? p := fun _ => rfl
  simp only [← hlookup, stored]
  cases he : (Table.of r.forest).lookup? p with
  | some e => exact ⟨_, (hplaced.held he).2, rfl⟩
  | none => exact ⟨_, hplaced.created he, rfl⟩

/-- What was added is found under its name when that is faithful, and then with the value that the addition left
    there; under a name that is not, nothing is found. Under the absolute name that was returned it is found in any
    case. -/
theorem found_iff_faithful (h : Reachable r) (hadd : r.addIn name scope v = .ok (p, r')) :
    (r'.resolve name scope = .ok p ↔ Faithful name) ∧ (r'.existsIn name scope = true ↔ Faithful name) ∧
      (r'.getIn name scope = .ok (r.stored p v) ↔ Faithful name) ∧
      ∀ other, r'.resolve p.text other = .ok p ∧ r'.getIn p.text other = .ok (r.stored p v) := by
  have htidy : Forest.Tidy r'.forest := by
    have hreach := h.perform (.addIn name scope v)
    rw [show (r.perform (.addIn name scope v)).2 = r' by simp only [perform, hadd]; rfl] at hreach
    exact (tidy_of_reachable hreach).forest
  obtain ⟨e, he, hvalue⟩ := exists_stored h hadd
  have hname := (addIn_eq_ok.1 hadd).1
  have hcontains : r'.contains p = true := by
    obtain ⟨n, hn, -⟩ := Option.map_eq_some_iff.1 he
    exact Option.isSome_iff_exists.2 ⟨n, hn⟩
  have hfound : Faithful name → r'.resolve name scope = .ok p := fun hfaithful =>
    resolve_of_ofName hname hfaithful hcontains
  refine ⟨⟨faithful_of_resolve htidy, hfound⟩, ⟨fun hexists => ?_, fun hfaithful => ?_⟩,
    ⟨fun hget => ?_, fun hfaithful => ?_⟩, fun other => ?_⟩
  · obtain ⟨found, hresolve⟩ := exists_resolve_of_existsIn hexists
    exact faithful_of_resolve htidy hresolve
  · rw [existsIn, hfound hfaithful]
    rfl
  · obtain ⟨found, hresolve⟩ := exists_resolve_of_getIn hget
    exact faithful_of_resolve htidy hresolve
  · rw [← hvalue]
    exact getIn_of_resolve (hfound hfaithful) he
  · obtain ⟨hne, hwf⟩ := wellFormed_of_contains htidy hcontains
    have habsolute : Faithful p.text := .inl (by rw [toList_text hne, List.head?_cons])
    have hagain := resolve_of_ofName (ofName_text hne hwf other) habsolute hcontains
    rw [← hvalue]
    exact ⟨hagain, getIn_of_resolve hagain he⟩

/-- A name with blanks around it, and the same without. -/
theorem found_iff_faithful_spaced :
    Reachable fenced ∧ ∃ r', fenced.addIn " c/d" "/a" (.datum (.int 7)) = .ok (["a", "c", "d"], r') ∧
      r'.resolve " c/d" "/a" ≠ .ok ["a", "c", "d"] ∧
      r'.getIn "/a/c/d" "/" = .ok (.datum (.int 7)) := by
  obtain ⟨r', hadd⟩ : ∃ r', fenced.addIn " c/d" "/a" (.datum (.int 7)) = .ok (["a", "c", "d"], r') :=
    ⟨_, rfl⟩
  obtain ⟨hresolve, -, -, htext⟩ := found_iff_faithful reachable_fenced hadd
  have hstored : fenced.stored ["a", "c", "d"] (.datum (.int 7)) = .datum (.int 7) := by rfl
  refine ⟨reachable_fenced, r', hadd, mt hresolve.1 (by decide), ?_⟩
  rw [← hstored]
  exact (htext "/").2

/-- A name is not found as it was added, when there are blanks around it. -/
theorem found_as_added_fails :
    ¬ ∀ {r r' : Registry} {name scope : String} {v : Value} {p : Path}, Reachable r →
      r.addIn name scope v = .ok (p, r') →
      r'.resolve name scope = .ok p ∧ r'.existsIn name scope = true ∧
        r'.getIn name scope = .ok (r.stored p v) := by
  intro h
  have hadd : (Registry.empty "index").addIn " a " "/" (.datum (.int 1)) =
      .ok (["a"], ⟨"index", [.leaf "a" [] (.int 1)], [], []⟩) := by rfl
  have hresolve := (h (.empty "index") hadd).1
  rw [show Registry.resolve _ " a " "/" = .error (.notFound " a ") by rfl] at hresolve
  cases hresolve

end
end Lockstep.Registry
