import Mathlib.Data.List.Nodup
import Lockstep.Value.Basic

/- Names that join a container.

   1. `Brings` describes what names bring to a container: those that it does not hold, in order of first
      occurrence. One list answers to it (`Brings.unique`), and that is `newNames` (`brings_newNames`).
   2. A name that is entered on a roll is one of the new names, or changes nothing (`enter_eq`). So a run of
      names leaves the new ones behind those that were there, counted (`foldl_enter`), and a container that
      is changed in place becomes what `extend` gives (`extendInPlace_eq`).
   3. Names in two portions are the names at once (`newNames_append`, `extend_append`). A second time
      they bring nothing, and no name comes to be listed twice (`extend_lists_new_once`). -/
namespace Lockstep.Value

/-- What names bring to a container: the ones that it does not hold, in order of first occurrence. -/
structure Brings (held names added : List String) : Prop where
  mem_iff (name : String) : name ∈ added ↔ name ∈ names ∧ name ∉ held
  inOrder : added.Pairwise fun a b => names.idxOf a < names.idxOf b

section
variable {held names more added other : List String} {name : String}

/-! ## The new names -/

theorem mem_newNames : name ∈ newNames held names ↔ name ∈ names ∧ name ∉ held := by
  induction names generalizing held with
  | nil => simp [newNames]
  | cons first rest ih =>
    by_cases hfirst : first ∈ held
    · rw [newNames_cons_of_mem hfirst, ih, List.mem_cons]
      constructor
      · intro ⟨hrest, hnot⟩
        exact ⟨.inr hrest, hnot⟩
      · intro ⟨hname, hnot⟩
        have hne : name ≠ first := fun heq => hnot (heq ▸ hfirst)
        exact ⟨hname.resolve_left hne, hnot⟩
    · rw [newNames_cons_of_not_mem hfirst, List.mem_cons, ih, List.mem_cons, List.mem_append,
        List.mem_singleton]
      by_cases hname : name = first
      · subst hname
        simp [hfirst]
      · simp [hname]

/-- A name in front of a list leaves the order of the others as it is. -/
theorem inOrder_cons (h : added.Pairwise fun a b => names.idxOf a < names.idxOf b) (hname : name ∉ added) :
    added.Pairwise fun a b => (name :: names).idxOf a < (name :: names).idxOf b := by
  have hbehind : ∀ c ∈ added, (name :: names).idxOf c = names.idxOf c + 1 := by
    intro c hc
    have hne : name ≠ c := fun heq => hname (heq ▸ hc)
    exact List.idxOf_cons_ne names hne
  refine h.imp_of_mem ?_
  intro a b ha hb hlt
  rw [hbehind a ha, hbehind b hb]
  omega

theorem inOrder_newNames :
    (newNames held names).Pairwise fun a b => names.idxOf a < names.idxOf b := by
  induction names generalizing held with
  | nil => exact .nil
  | cons first rest ih =>
    by_cases hfirst : first ∈ held
    · have hnot : first ∉ newNames held rest := fun hmem => (mem_newNames.1 hmem).2 hfirst
      rw [newNames_cons_of_mem hfirst]
      exact inOrder_cons ih hnot
    · -- The name is held from here on, so it is not new again.
      have hnot : first ∉ newNames (held ++ [first]) rest := fun hmem =>
        (mem_newNames.1 hmem).2 (List.mem_append_right held List.mem_cons_self)
      rw [newNames_cons_of_not_mem hfirst]
      refine .cons ?_ (inOrder_cons ih hnot)
      intro b hb
      have hne : first ≠ b := fun heq => hnot (heq ▸ hb)
      rw [List.idxOf_cons_self, List.idxOf_cons_ne rest hne]
      omega

/-- Names that come later are new if they are not among those that were there by then. -/
theorem newNames_append (held names more : List String) :
    newNames held (names ++ more) = newNames held names ++ newNames (held ++ newNames held names) more := by
  induction names generalizing held with
  | nil => rw [List.nil_append, newNames, List.nil_append, List.append_nil]
  | cons first rest ih =>
    rw [List.cons_append]
    by_cases hfirst : first ∈ held
    · rw [newNames_cons_of_mem hfirst, newNames_cons_of_mem hfirst, ih]
    · rw [newNames_cons_of_not_mem hfirst, newNames_cons_of_not_mem hfirst, ih, List.append_assoc held,
        List.singleton_append, List.cons_append]

theorem brings_newNames (held names : List String) : Brings held names (newNames held names) where
  mem_iff _ := mem_newNames
  inOrder := inOrder_newNames

theorem Brings.nodup (h : Brings held names added) : added.Nodup := by
  refine h.inOrder.imp ?_
  intro a b hlt heq
  rw [heq] at hlt
  exact Nat.lt_irrefl _ hlt

/-- Which names are new and what their order is leaves no choice. -/
theorem Brings.unique (h : Brings held names added) (h' : Brings held names other) : other = added := by
  have hperm : other.Perm added := by
    rw [List.perm_ext_iff_of_nodup h'.nodup h.nodup]
    intro name
    rw [h'.mem_iff, h.mem_iff]
  exact hperm.eq_of_pairwise (fun a b _ _ hab hba => absurd hab (Nat.lt_asymm hba)) h'.inOrder h.inOrder

/-- Names are repeated behind the new ones only if they were before. -/
theorem Brings.nodup_append_iff (h : Brings held names added) : (held ++ added).Nodup ↔ held.Nodup := by
  rw [List.nodup_append']
  constructor
  · exact fun hall => hall.1
  · intro hheld
    refine ⟨hheld, h.nodup, ?_⟩
    intro name hname hadded
    exact ((h.mem_iff name).1 hadded).2 hname

/-- With the new names, all that were brought are held. -/
theorem Brings.mem_append (h : Brings held names added) : ∀ name ∈ names, name ∈ held ++ added := by
  intro name hname
  by_cases hheld : name ∈ held
  · exact List.mem_append_left added hheld
  · exact List.mem_append_right held ((h.mem_iff name).2 ⟨hname, hheld⟩)

/-! ## One name after the other -/

/-- A name that is entered is put behind the others if it is new. -/
theorem enter_eq (r : Roll) (name : String) :
    r.enter name =
      ⟨r.listed ++ newNames r.listed [name], r.added + (newNames r.listed [name]).length⟩ := by
  by_cases hname : name ∈ r.listed
  · rw [Roll.enter, if_pos hname, newNames_cons_of_mem hname, newNames, List.append_nil, List.length_nil,
      Nat.add_zero]
  · rw [Roll.enter, if_neg hname, newNames_cons_of_not_mem hname, newNames, List.length_singleton]

/-- A run of names leaves the new ones on the roll, behind those that were there, and counts them. -/
theorem foldl_enter (names : List String) (r : Roll) :
    names.foldl Roll.enter r =
      ⟨r.listed ++ newNames r.listed names, r.added + (newNames r.listed names).length⟩ := by
  induction names generalizing r with
  | nil => rw [List.foldl_nil, newNames, List.append_nil, List.length_nil, Nat.add_zero]
  | cons name rest ih =>
    have hportions : newNames r.listed (name :: rest) = _ := newNames_append r.listed [name] rest
    rw [List.foldl_cons, ih, enter_eq, hportions, List.length_append, List.append_assoc, Nat.add_assoc]

/-! ## Extending -/

/-- A value that is changed in place becomes what `extend` gives. Where that is refused it stays what it is. -/
theorem extendInPlace_eq (v : Value) (names : List String) :
    v.extendInPlace names =
      match v.extend names with
      | .ok (n, w) => (.ok n, w)
      | .error m => (.error m, v) := by
  cases v with
  | datum d => rfl
  | container held => simp only [extendInPlace, foldl_enter, extend, Nat.zero_add]

/-- Names brought in two portions are the names brought at once, and so are their numbers. -/
theorem extend_append (v : Value) (names more : List String) :
    v.extend (names ++ more) = do
      let (n, w) ← v.extend names
      let (m, u) ← w.extend more
      return (n + m, u) := by
  cases v with
  | datum d => rfl
  | container held =>
    calc (container held).extend (names ++ more)
        = .ok ((newNames held (names ++ more)).length, container (held ++ newNames held (names ++ more))) := rfl
      _ = .ok ((newNames held names).length + (newNames (held ++ newNames held names) more).length,
            container (held ++ newNames held names ++ newNames (held ++ newNames held names) more)) := by
        rw [newNames_append, List.length_append, List.append_assoc]
      _ = _ := rfl

/-- Names added to a container stand behind those that it held: exactly the ones that it did not hold, each
    once, in order of first occurrence, and their number is given. They are held then, so the same names bring
    nothing a second time, and a container without repeats gets none. Names brought in two portions are
    the names brought at once. A value that is no container refuses them and stays what it is. -/
theorem extend_lists_new_once (held names more : List String) (v : Value) (d : Datum) :
    (∃ added, Brings held names added ∧ added.Nodup ∧ (∀ other, Brings held names other → other = added) ∧
      (container held).extend names = .ok (added.length, container (held ++ added)) ∧
      (container (held ++ added)).extend names = .ok (0, container (held ++ added)) ∧
      ((held ++ added).Nodup ↔ held.Nodup)) ∧
    (v.extend (names ++ more) = do
      let (n, w) ← v.extend names
      let (m, u) ← w.extend more
      return (n + m, u)) ∧
    (v.extendInPlace names =
      match v.extend names with
      | .ok (n, w) => (.ok n, w)
      | .error m => (.error m, v)) ∧
    (datum d).extend names = .error ⟨"", d.kind, .container⟩ ∧
    (datum d).extendInPlace names = (.error ⟨"", d.kind, .container⟩, datum d) := by
  have hnew := brings_newNames held names
  refine ⟨⟨newNames held names, hnew, hnew.nodup, fun _ => hnew.unique, rfl, ?_, hnew.nodup_append_iff⟩,
    extend_append v names more, extendInPlace_eq v names, rfl, rfl⟩
  exact extend_of_forall_mem hnew.mem_append

/-- The container holds a name twice. Of the names brought to it one is held, and a new one comes twice. -/
theorem extend_lists_new_once_repeated :
    Brings ["b", "a", "b"] ["c", "a", "c", "d"] ["c", "d"] ∧
      (container ["b", "a", "b"]).extend ["c", "a", "c", "d"] =
        .ok (2, container ["b", "a", "b", "c", "d"]) ∧
      (container ["b", "a", "b"]).extendInPlace ["c", "a", "c", "d"] =
        (.ok 2, container ["b", "a", "b", "c", "d"]) := by
  have hlisted : Brings ["b", "a", "b"] ["c", "a", "c", "d"] ["c", "d"] := by
    refine ⟨?_, by decide⟩
    intro name
    simp only [List.mem_cons, List.not_mem_nil, or_false]
    constructor
    · intro hnew
      rcases hnew with rfl | rfl <;> decide
    · intro ⟨hname, hnot⟩
      rcases hname with hc | ha | hc | hd
      · exact .inl hc
      · exact absurd (.inr (.inl ha)) hnot
      · exact .inl hc
      · exact .inr hd
  obtain ⟨⟨added, -, -, hunique, hextend, -, -⟩, -, hinPlace, -⟩ :=
    extend_lists_new_once ["b", "a", "b"] ["c", "a", "c", "d"] [] (container ["b", "a", "b"]) .empty
  obtain rfl := hunique _ hlisted
  rw [hextend] at hinPlace
  exact ⟨hlisted, hextend, hinPlace⟩

end
end Lockstep.Value
