import Lockstep.Proofs.Registry.Linked

/- What adding a value does.

   1. `Refusal` says what keeps a value from a path, with the error: a child that is malformed or not there,
      an entry of another kind, or something other than a container above. What is refused leaves the table
      as it was (`Refusal.addAt`), and what is not refused is placed (`addAt_cases`).
   2. So an addition that fails leaves the registry and its ledger as they were (`addIn_all_or_nothing`), and
      one that succeeds changes its entry, what is missing above it, the list that this is added to, and nothing
      else (`addIn_changes`). -/
namespace Lockstep.Registry

namespace Table
variable {t : Table} {p : Path} {v : Value} {e : Entry} {err : Error}

/-! ## Values that are refused -/

/-- The children that a value brings are there, under names that are well formed. -/
def HasChildren (t : Table) (p : Path) (names : List String) : Prop :=
  ∀ name ∈ names, isSegment name.toList = true ∧ t.contains (p ++ [name]) = true

/-- What keeps a value from a path, with the error. A child is the first that is at fault; what comes after
    the children is at fault only if none of them is. -/
inductive Refusal (t : Table) (p : Path) (v : Value) : Error → Prop
  | malformed {names : List String} {child : String} {more : List String}
    (hchildren : childNames v = names ++ child :: more)
    (hnames : t.HasChildren p names) (h : isSegment child.toList = false) :
    Refusal t p v (.invalidName child)
  | dangling {names : List String} {child : String} {more : List String}
    (hchildren : childNames v = names ++ child :: more)
    (hnames : t.HasChildren p names) (hname : isSegment child.toList = true)
    (h : t.contains (p ++ [child]) = false) : Refusal t p v (.danglingChild p.text child)
  | retyped {e : Entry} (hchildren : t.HasChildren p (childNames v)) (he : t.lookup? p = some e)
    (h : e.value.kind ≠ v.kind) : Refusal t p v (.mismatch ⟨p.text, e.value.kind, v.kind⟩)
  | blocked {above : Path} {e : Entry} (hchildren : t.HasChildren p (childNames v)) (hnew : t.lookup? p = none)
    (h : t.Blocked p above e) : Refusal t p v (.invalidNamespace above.text)

theorem checkChildren_of_hasChildren {names : List String} (h : t.HasChildren p names)
    (more : List String) : t.checkChildren p (names ++ more) = t.checkChildren p more := by
  induction names with
  | nil => rfl
  | cons name names ih =>
    obtain ⟨hname, hcontains⟩ := h name List.mem_cons_self
    rw [List.cons_append, checkChildren, if_pos hname, if_pos hcontains]
    exact ih fun n hn => h n (List.mem_cons_of_mem name hn)

/-- The children are all there, or one of them is the first that is malformed or missing. -/
theorem hasChildren_or (t : Table) (p : Path) (names : List String) :
    t.HasChildren p names ∨ ∃ front child more, names = front ++ child :: more ∧
      t.HasChildren p front ∧ (isSegment child.toList = false ∨
        isSegment child.toList = true ∧ t.contains (p ++ [child]) = false) := by
  induction names with
  | nil => exact .inl (List.forall_mem_nil _)
  | cons name names ih =>
    have hnone : t.HasChildren p [] := List.forall_mem_nil _
    by_cases hname : isSegment name.toList = true
    · by_cases hcontains : t.contains (p ++ [name]) = true
      · have hfirst : ∀ {front}, t.HasChildren p front → t.HasChildren p (name :: front) :=
          fun h => List.forall_mem_cons.2 ⟨⟨hname, hcontains⟩, h⟩
        obtain hall | ⟨front, child, more, rfl, hfront, hchild⟩ := ih
        · exact .inl (hfirst hall)
        · exact .inr ⟨name :: front, child, more, rfl, hfirst hfront, hchild⟩
      · exact .inr ⟨[], name, names, rfl, hnone, .inr ⟨hname, Bool.eq_false_iff.2 hcontains⟩⟩
    · exact .inr ⟨[], name, names, rfl, hnone, .inl (Bool.eq_false_iff.2 hname)⟩

theorem checkChildren_eq_ok (h : t.HasChildren p (childNames v)) :
    t.checkChildren p (childNames v) = .ok () := by
  have hcheck := checkChildren_of_hasChildren h []
  rwa [List.append_nil] at hcheck

/-- What is refused fails with the error that says so, and leaves the table as it was. -/
theorem Refusal.addAt (hl : t.Linked) (hne : p ≠ []) (h : t.Refusal p v err) :
    t.addAt p v = (.error err, t) := by
  cases h with
  | malformed hchildren hnames h =>
    rw [Table.addAt, hchildren, checkChildren_of_hasChildren hnames, checkChildren,
      if_neg (by simp [h])]
  | dangling hchildren hnames hname h =>
    rw [Table.addAt, hchildren, checkChildren_of_hasChildren hnames, checkChildren, if_pos hname,
      if_neg (by simp [h])]
  | retyped hchildren he h =>
    simp only [Table.addAt, checkChildren_eq_ok hchildren, he, if_neg h]
  | blocked hchildren hnew h =>
    simp only [Table.addAt, checkChildren_eq_ok hchildren, hnew]
    obtain ⟨front, e, hfront, hgrow⟩ | ⟨t', hclear, -⟩ := grow_cases hl (.inl rfl) hne hnew v
    · rw [hl.blocked_unique h hfront]
      exact hgrow
    · exact absurd h (hclear _ _)

/-! ## Values that are placed -/

/-- A value that replaces another is placed. -/
theorem placed_put (hl : t.Linked) (he : t.lookup? p = some e) (hkind : e.value.kind = v.kind) :
    t.Placed p v (t.put p { e with value := v.onto e.value }) := by
  have hthere : ∀ {q}, q <+: p → q ≠ [] → ∃ e, t.lookup? q = some e := fun hq hne =>
    contains_iff.1 (hl.contains_prefix (contains_iff.2 ⟨e, he⟩) hq hne)
  refine ⟨fun he' => ?_, fun hnone => ?_, fun {q next} hne hq hmissing => ?_,
    fun {q next _} hq _ hmissing => ?_, fun {first} hfirst => ?_, fun hself _ => if_neg hself⟩
  · cases he.symm.trans he'
    exact ⟨hkind, if_pos rfl⟩
  · cases hnone.symm.trans he
  · obtain ⟨_, hentry⟩ := hthere ((List.prefix_append q [next]).trans hq) hne
    cases hmissing.symm.trans hentry
  · obtain ⟨_, hentry⟩ := hthere hq (by simp)
    cases hmissing.symm.trans hentry
  · rw [if_pos (contains_iff.2 (hthere hfirst (by simp)))]
    rfl

/-- A value is refused, or placed. -/
theorem addAt_cases (hl : t.Linked) (hne : p ≠ []) (v : Value) :
    (∃ err, t.Refusal p v err) ∨ ∃ t', t.addAt p v = (.ok (), t') ∧ t.Placed p v t' := by
  obtain hchildren | ⟨front, child, more, hsplit, hfront, h | ⟨hname, h⟩⟩ :=
    hasChildren_or t p (childNames v)
  · have hcheck := checkChildren_eq_ok hchildren
    cases he : t.lookup? p with
    | none =>
      obtain ⟨front, e, hblocked, -⟩ | ⟨t', -, hgrow, hplaced⟩ := grow_cases hl (.inl rfl) hne he v
      · exact .inl ⟨_, .blocked hchildren he hblocked⟩
      · exact .inr ⟨t', by simp only [addAt, hcheck, he]; exact hgrow, hplaced⟩
    | some e =>
      by_cases hkind : e.value.kind = v.kind
      · refine .inr ⟨_, ?_, placed_put hl he hkind⟩
        simp only [addAt, hcheck, he, if_pos hkind]
        cases v with
        | datum d => rfl
        | container names =>
          obtain ⟨value, attributes⟩ := e
          cases value with
          | datum d => cases d <;> cases hkind
          | container listed => rfl
      · exact .inl ⟨_, .retyped hchildren he hkind⟩
  · exact .inl ⟨_, .malformed hsplit hfront h⟩
  · exact .inl ⟨_, .dangling hsplit hfront hname h⟩

/-- A name that is not one, a value that is refused, or one that is placed. -/
theorem addIn_cases (hl : t.Linked) (name scope : String) (v : Value) :
    (∃ err, (Path.ofName name scope = .error err ∨
        ∃ p, Path.ofName name scope = .ok p ∧ t.Refusal p v err) ∧
      t.addIn name scope v = (.error err, t)) ∨
    ∃ p t', Path.ofName name scope = .ok p ∧ t.addIn name scope v = (.ok p, t') ∧ t.Placed p v t' := by
  rw [addIn]
  cases hname : Path.ofName name scope with
  | error err => exact .inl ⟨err, .inl rfl, rfl⟩
  | ok p =>
    have hne := Path.ne_nil_of_ofName hname
    obtain ⟨err, hrefusal⟩ | ⟨t', hadd, hplaced⟩ := addAt_cases hl hne v
    · exact .inl ⟨err, .inr ⟨p, rfl, hrefusal⟩, by simp only [hrefusal.addAt hl hne]⟩
    · exact .inr ⟨p, t', rfl, by simp only [hadd], hplaced⟩

/-- The error of a name that is not one, and of a value that is refused. -/
theorem addIn_of_refusal (hl : t.Linked) {name scope : String} (h : Path.ofName name scope = .error err ∨
    ∃ p, Path.ofName name scope = .ok p ∧ t.Refusal p v err) :
    t.addIn name scope v = (.error err, t) := by
  obtain hname | ⟨p, hname, hrefusal⟩ := h
  · simp only [addIn, hname]
  · simp only [addIn, hname, hrefusal.addAt hl (Path.ne_nil_of_ofName hname)]

theorem exists_refusal_iff : (∃ err, t.Refusal p v err) ↔
    (∃ child ∈ childNames v, isSegment child.toList = false ∨ t.contains (p ++ [child]) = false) ∨
      (∃ e, t.lookup? p = some e ∧ e.value.kind ≠ v.kind) ∨
      t.lookup? p = none ∧ ∃ above e, t.Blocked p above e := by
  constructor
  · rintro ⟨err, h⟩
    cases h with
    | malformed hchildren _ h => exact .inl ⟨_, by rw [hchildren]; simp, .inl h⟩
    | dangling hchildren _ _ h => exact .inl ⟨_, by rw [hchildren]; simp, .inr h⟩
    | retyped _ he h => exact .inr (.inl ⟨_, he, h⟩)
    | blocked _ hnew h => exact .inr (.inr ⟨hnew, _, _, h⟩)
  · intro h
    obtain hchildren | ⟨front, child, more, hsplit, hfront, hchild | ⟨hname, hchild⟩⟩ :=
      hasChildren_or t p (childNames v)
    · obtain ⟨child, hmem, hchild⟩ | ⟨e, he, hkind⟩ | ⟨hnew, above, e, hblocked⟩ := h
      · obtain ⟨hname, hcontains⟩ := hchildren child hmem
        simp [hname, hcontains] at hchild
      · exact ⟨_, .retyped hchildren he hkind⟩
      · exact ⟨_, .blocked hchildren hnew hblocked⟩
    · exact ⟨_, .malformed hsplit hfront hchild⟩
    · exact ⟨_, .dangling hsplit hfront hname hchild⟩

end Table

/-! ## Registries -/

section
variable {r r' : Registry} {name scope : String} {v : Value} {p : Path} {err : Error}

theorem linked_of_reachable (h : Reachable r) : (Table.of r.forest).Linked :=
  (Table.sound_of (tidy_of_reachable h).forest).linked

theorem addIn_eq_error_iff (h : Reachable r) : r.addIn name scope v = .error err ↔
    Path.ofName name scope = .error err ∨
      ∃ p, Path.ofName name scope = .ok p ∧ (Table.of r.forest).Refusal p v err := by
  have hl := linked_of_reachable h
  have htable := Table.addIn_of r name scope v
  constructor
  · intro herror
    rw [herror] at htable
    obtain ⟨err', hrefused, hadd⟩ | ⟨p, t, -, hadd, -⟩ := Table.addIn_cases hl name scope v
    · cases htable.symm.trans hadd
      exact hrefused
    · cases htable.symm.trans hadd
  · intro hrefused
    rw [Table.addIn_of_refusal hl hrefused] at htable
    cases hadd : r.addIn name scope v with
    | error err' =>
      rw [hadd] at htable
      cases htable
      rfl
    | ok added =>
      rw [hadd] at htable
      cases htable

/-- An addition that fails leaves everything as it was, also in the ledger, where containers are made before
    all that may be in the way of the value has been seen. It fails when the name is not one; when the value
    brings a child that is malformed or not there; when the entry that is there is of another kind; and when
    there is none, but something other than a container above it. -/
theorem addIn_all_or_nothing (h : Reachable r) (name scope : String) (v : Value) :
    (∀ err, (r.perform (.addIn name scope v)).1 = some err →
        (r.perform (.addIn name scope v)).2 = r ∧
          (Ledger.of r).perform (.addIn name scope v) = (some err, .of r)) ∧
      (∀ err, (r.perform (.addIn name scope v)).1 = some err ↔
        Path.ofName name scope = .error err ∨
          ∃ p, Path.ofName name scope = .ok p ∧ (Table.of r.forest).Refusal p v err) ∧
      ((∃ err, (r.perform (.addIn name scope v)).1 = some err) ↔
        (∃ err, Path.ofName name scope = .error err) ∨ ∃ p, Path.ofName name scope = .ok p ∧
          ((∃ child ∈ childNames v,
              isSegment child.toList = false ∨ r.contains (p ++ [child]) = false) ∨
            (∃ e, r.entry? p = some e ∧ e.value.kind ≠ v.kind) ∨
            r.entry? p = none ∧ ∃ above e, above <+: p ∧ above ≠ p ∧ r.entry? above = some e ∧
              e.value.kind ≠ .container)) := by
  have hfails : ∀ err, (r.perform (.addIn name scope v)).1 = some err ↔
      r.addIn name scope v = .error err := by
    intro err
    simp only [perform]
    cases r.addIn name scope v <;> simp [Except.map, orUnchanged]
  refine ⟨fun err herror => ?_, fun err => (hfails err).trans (addIn_eq_error_iff h), ?_⟩
  · have hr : r.perform (.addIn name scope v) = (some err, r) := by
      simp only [perform, (hfails err).1 herror]
      rfl
    rw [Ledger.perform_of, hr]
    exact ⟨rfl, rfl⟩
  · have hcause : ∀ p, (∃ err, (Table.of r.forest).Refusal p v err) ↔ _ := fun p =>
      Table.exists_refusal_iff
    simp only [Table.contains_of] at hcause
    simp only [hfails, addIn_eq_error_iff h, exists_or]
    refine or_congr Iff.rfl ⟨?_, ?_⟩
    · rintro ⟨err, p, hp, hrefusal⟩
      exact ⟨p, hp, (hcause p).1 ⟨err, hrefusal⟩⟩
    · rintro ⟨p, hp, hrefused⟩
      obtain ⟨err, hrefusal⟩ := (hcause p).2 hrefused
      exact ⟨err, p, hp, hrefusal⟩

/-- A registry with a number below a container that has an attribute, a saved state, and a namespace. -/
def fenced : Registry := (Registry.empty "index").after
  [.saveState, .add "/a/b" (.datum (.int 1)), .setAttribute "/a" "unit" "m", .pushNamespace "a"]

theorem reachable_fenced : Reachable fenced := (Reachable.empty "index").after _

theorem addIn_all_or_nothing_fenced :
    Reachable fenced ∧
      (fenced.perform (.addIn "b/c/d" "/a" (.datum .empty))).1 = some (.invalidNamespace "/a/b") ∧
      (fenced.perform (.addIn "b/c/d" "/a" (.datum .empty))).2 = fenced ∧
      (fenced.perform (.addIn "/x" "/" (.container ["y"]))).1 = some (.danglingChild "/x" "y") := by
  have hblocked : (fenced.perform (.addIn "b/c/d" "/a" (.datum .empty))).1 =
      some (.invalidNamespace "/a/b") := by decide +kernel
  have hchildren : childNames (.container ["y"]) = [] ++ "y" :: [] := rfl
  refine ⟨reachable_fenced, hblocked,
    ((addIn_all_or_nothing reachable_fenced _ _ _).1 _ hblocked).1, ?_⟩
  refine ((addIn_all_or_nothing reachable_fenced _ _ _).2.1 _).2 (.inr ⟨["x"], by rfl, ?_⟩)
  exact .dangling hchildren (List.forall_mem_nil _) (by decide +kernel) (by decide +kernel)

theorem placed_of_linked (hl : (Table.of r.forest).Linked) (hadd : r.addIn name scope v = .ok (p, r')) :
    (Table.of r.forest).Placed p v (.of r'.forest) := by
  have htable := Table.addIn_of r name scope v
  rw [hadd] at htable
  obtain ⟨err, -, hadd'⟩ | ⟨p', t, -, hadd', hplaced⟩ := Table.addIn_cases hl name scope v
  · cases htable.symm.trans hadd'
  · cases htable.symm.trans hadd'
    exact hplaced

theorem placed_of_addIn (h : Reachable r) (hadd : r.addIn name scope v = .ok (p, r')) :
    (Table.of r.forest).Placed p v (.of r'.forest) :=
  placed_of_linked (linked_of_reachable h) hadd

/-- What an addition changes: its entry, what is missing above it, and the list that this is added to. All other
    entries, the namespaces and the saved states stay as they are, in the ledger as well. -/
theorem addIn_changes (h : Reachable r) (hadd : r.addIn name scope v = .ok (p, r')) :
    Path.ofName name scope = .ok p ∧ (Table.of r.forest).Placed p v (.of r'.forest) ∧
      r' = { r with forest := r'.forest } ∧
      (Ledger.of r).perform (.addIn name scope v) = (none, { Ledger.of r with table := .of r'.forest }) := by
  obtain ⟨hname, hscopes, hsaved⟩ := (changes_addIn hadd).keeps
  refine ⟨(addIn_eq_ok.1 hadd).1, placed_of_addIn h hadd, ?_, ?_⟩
  · rw [← hname, ← hscopes, ← hsaved]
  · simp only [Ledger.perform, Ledger.onTable]
    rw [show (Ledger.of r).table = Table.of r.forest from rfl, Table.addIn_of, hadd]
    rfl

/-- A name below a container, with a container that is missing on the way. -/
theorem addIn_changes_fenced :
    Reachable fenced ∧ ∃ r', fenced.addIn "c/d" "/a" (.datum (.int 7)) = .ok (["a", "c", "d"], r') ∧
      r'.entry? ["a", "c", "d"] = some ⟨.datum (.int 7), []⟩ ∧
      r'.entry? ["a", "c"] = some ⟨.container ["d"], []⟩ ∧
      r'.entry? ["a"] = some ⟨.container ["b", "c"], [("unit", "m")]⟩ ∧
      r'.entry? ["a", "b"] = some ⟨.datum (.int 1), []⟩ ∧ r'.roots = ["a"] := by
  obtain ⟨r', hadd⟩ : ∃ r', fenced.addIn "c/d" "/a" (.datum (.int 7)) = .ok (["a", "c", "d"], r') :=
    ⟨_, rfl⟩
  obtain ⟨-, hplaced, -⟩ := addIn_changes reachable_fenced hadd
  have hway : ["a"] ++ ["c"] <+: ["a", "c", "d"] := ⟨["d"], rfl⟩
  have ha : fenced.entry? ["a"] = some ⟨.container ["b"], [("unit", "m")]⟩ := by decide +kernel
  obtain ⟨names, hnames, hlast⟩ := hplaced.last hway ha (by decide +kernel)
  cases hnames
  have hother : ∀ next, ["a", "b"] ++ [next] <+: ["a", "c", "d"] →
      (Table.of fenced.forest).contains (["a", "b"] ++ [next]) = true := by
    rintro next ⟨rest, hrest⟩
    simp at hrest
  exact ⟨reachable_fenced, r', hadd, hplaced.created (by decide +kernel),
    hplaced.missing (by simp) ⟨[], rfl⟩ (by decide +kernel), hlast,
    (hplaced.others (by simp) hother).trans (by decide +kernel),
    (hplaced.roots ⟨["c", "d"], rfl⟩).trans (by decide +kernel)⟩

end

end Lockstep.Registry
