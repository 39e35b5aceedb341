import Lockstep.Proofs.Registry.Invariant

/- Tables that hang together, and what grows in them.

   1. A table is `Linked` when every entry stands at the top or in a container, and nothing is listed that is
      not there. Below an open path a new entry is made and listed at once (`insert_eq`), and a linked table
      stays linked (`Linked.inserted`).
   2. `Placed` says what has become of a table once a value was placed at a path: of its entry, of the
      containers that were made on the way, of the one that they were listed in, of the names at the top, and
      that nothing else has changed.
   3. `grow` makes containers while it is still looking for something in its way. In a linked table that
      stands above all that is missing, so it either fails before it has changed anything, or places the
      value (`grow_cases`). -/
namespace Lockstep

/-- What an entry holds after a value was added to what it held: a datum takes its place, names join those
    that it lists. -/
def Value.onto (v held : Value) : Value :=
  match v, held with
  | .container names, .container listed => .container (listed ++ Value.newNames listed names)
  | v, _ => v

namespace Registry
open Forest (listName)

namespace Table
variable {t t' : Table} {p q above : Path} {name next leaf : String} {v : Value} {e : Entry}

/-! ## Linked tables -/

/-- Every entry stands at the top or in a container, and what is listed is there. -/
structure Linked (t : Table) : Prop where
  /-- The root is no entry. -/
  top : t.lookup? [] = none
  above : ∀ {p name}, p ≠ [] → t.contains (p ++ [name]) = true →
    ∃ names attributes, t.lookup? p = some ⟨.container names, attributes⟩
  below : ∀ {p names attributes}, t.lookup? p = some ⟨.container names, attributes⟩ →
    ∀ name ∈ names, t.contains (p ++ [name]) = true
  roots : ∀ name ∈ t.roots, t.contains [name] = true

theorem Sound.linked (h : t.Sound) : t.Linked where
  top := by
    cases hroot : t.lookup? [] with
    | none => rfl
    | some e => exact absurd rfl (Path.ne_nil_of_ofName (h.named hroot "/"))
  above hne hcontains := by
    obtain ⟨names, attributes, hentry, -⟩ := h.listed hne hcontains
    exact ⟨names, attributes, hentry⟩
  below hentry := (h.lists hentry).2
  roots name := (h.roots.2 name).1

theorem Linked.ne_nil (hl : t.Linked) (he : t.lookup? p = some e) : p ≠ [] := by
  rintro rfl
  cases hl.top.symm.trans he

/-- An entry may be made below the path: it is the root or a container. -/
def IsOpen (t : Table) (p : Path) : Prop :=
  p = [] ∨ ∃ names attributes, t.lookup? p = some ⟨.container names, attributes⟩

theorem contains_iff : t.contains p = true ↔ ∃ e, t.lookup? p = some e := Option.isSome_iff_exists

theorem not_contains_iff : ¬ t.contains p = true ↔ t.lookup? p = none := by
  rw [contains, Bool.not_eq_true, Option.isSome_eq_false_iff, Option.isNone_iff_eq_none]

theorem IsOpen.contains (h : t.IsOpen p) (hne : p ≠ []) : t.contains p = true := by
  obtain rfl | ⟨names, attributes, hentry⟩ := h
  · exact absurd rfl hne
  · exact contains_iff.2 ⟨_, hentry⟩

theorem IsOpen.kind (h : t.IsOpen p) (hne : p ≠ []) (he : t.lookup? p = some e) :
    e.value.kind = .container := by
  obtain rfl | ⟨names, attributes, hentry⟩ := h
  · exact absurd rfl hne
  · rw [hentry] at he
    cases he
    rfl

/-- What lies on the way to an entry is open. -/
theorem Linked.isOpen (hl : t.Linked) {rest : Path} (h : t.contains (p ++ next :: rest) = true) :
    t.IsOpen p := by
  induction rest generalizing p next with
  | nil =>
    by_cases hne : p = []
    · exact .inl hne
    · exact .inr (hl.above hne h)
  | cons name rest ih =>
    have hrest : t.contains (p ++ [next] ++ name :: rest) = true := by simpa using h
    have hnext : t.IsOpen (p ++ [next]) := ih hrest
    by_cases hne : p = []
    · exact .inl hne
    · exact .inr (hl.above hne (hnext.contains (by simp)))

/-- What lies on the way to an open path is open. -/
theorem Linked.isOpen_prefix (hl : t.Linked) (ho : t.IsOpen p) (hq : q <+: p) : t.IsOpen q := by
  obtain ⟨rest, rfl⟩ := hq
  cases rest with
  | nil => rwa [List.append_nil] at ho
  | cons next rest => exact hl.isOpen (ho.contains (by simp))

theorem Linked.contains_prefix (hl : t.Linked) (h : t.contains p = true) (hq : q <+: p)
    (hne : q ≠ []) : t.contains q = true := by
  obtain ⟨rest, rfl⟩ := hq
  cases rest with
  | nil => rwa [List.append_nil] at h
  | cons next rest => exact (hl.isOpen h).contains hne

theorem Linked.missing_of_prefix (hl : t.Linked) (hp : t.lookup? p = none) (hne : p ≠ [])
    (hq : p <+: q) : t.lookup? q = none := by
  rw [← not_contains_iff] at hp ⊢
  exact fun hcontains => hp (hl.contains_prefix hcontains hq hne)

/-- A place on the way to a path, of which the entries up to `above` are there and those from the next one
    on are missing: it lies in front of that gap, at its edge or behind it. -/
theorem Linked.way_cases (hl : t.Linked) (ho : t.IsOpen above) (hnew : t.lookup? (above ++ [name]) = none)
    (hp : above ++ [name] <+: p) (hq : q ++ [next] <+: p) :
    (q ++ [next] <+: above ∧ t.contains (q ++ [next]) = true) ∨ (q = above ∧ next = name) ∨
      above ++ [name] <+: q ∧ t.lookup? q = none ∧ t.lookup? (q ++ [next]) = none := by
  have hbehind : above ++ [name] <+: q → above ++ [name] <+: q ∧ t.lookup? q = none ∧
      t.lookup? (q ++ [next]) = none := fun h =>
    ⟨h, hl.missing_of_prefix hnew (by simp) h,
      hl.missing_of_prefix hnew (by simp) (h.trans (List.prefix_append q [next]))⟩
  obtain h | h := List.prefix_or_prefix_of_prefix hq hp
  · obtain heq | h := List.prefix_concat_iff.1 h
    · obtain ⟨rfl, hname⟩ := List.append_inj' heq rfl
      exact .inr (.inl ⟨rfl, List.singleton_inj.1 hname⟩)
    · exact .inl ⟨h, (hl.isOpen_prefix ho h).contains (by simp)⟩
  · obtain heq | h := List.prefix_concat_iff.1 h
    · obtain ⟨rfl, hname⟩ := List.append_inj' heq rfl
      exact .inr (.inl ⟨rfl, (List.singleton_inj.1 hname).symm⟩)
    · exact .inr (.inr (hbehind h))

/-! ## One new entry -/

/-- The table with a new entry right below a path, listed there. -/
def inserted (t : Table) (above : Path) (leaf : String) (v : Value) : Table where
  lookup? q :=
    if q = above ++ [leaf] then some ⟨v, []⟩
    else if q = above then (t.lookup? q).map (listName leaf) else t.lookup? q
  roots := if above = [] then t.roots ++ [leaf] else t.roots

theorem inserted_self (t : Table) (above : Path) (leaf : String) (v : Value) :
    (t.inserted above leaf v).lookup? (above ++ [leaf]) = some ⟨v, []⟩ := if_pos rfl

theorem inserted_above {names : List String} {attributes : Attributes}
    (h : t.lookup? above = some ⟨.container names, attributes⟩) :
    (t.inserted above leaf v).lookup? above = some ⟨.container (names ++ [leaf]), attributes⟩ := by
  simp only [inserted, if_neg (concat_ne above leaf).symm, if_pos, h]
  rfl

theorem inserted_of_ne (hself : q ≠ above ++ [leaf]) (habove : q ≠ above) :
    (t.inserted above leaf v).lookup? q = t.lookup? q := by
  simp only [inserted, if_neg hself, if_neg habove]

/-- Behind the new entry all is as it was. -/
theorem inserted_behind (hq : above ++ [leaf] <+: q) (hself : q ≠ above ++ [leaf]) :
    (t.inserted above leaf v).lookup? q = t.lookup? q := by
  refine inserted_of_ne hself ?_
  rintro rfl
  exact absurd hq.length_le (by simp)

theorem contains_inserted : (t.inserted above leaf v).contains q = true ↔
    q = above ++ [leaf] ∨ t.contains q = true := by
  rw [contains, inserted]
  dsimp only
  split
  · simp_all
  · split <;> simp_all [contains]

/-- Where an entry may be made, it is made and listed at once. -/
theorem insert_eq (hl : t.Linked) (ho : t.IsOpen above) (hnew : t.lookup? (above ++ [leaf]) = none)
    (v : Value) : t.insert above leaf v = (.ok (), t.inserted above leaf v) := by
  have hmissing := not_contains_iff.2 hnew
  cases above with
  | nil =>
    have hroots : leaf ∉ (t.put ([] ++ [leaf]) ⟨v, []⟩).roots := fun hmem =>
      hmissing (hl.roots leaf hmem)
    rw [insert, link, if_neg hroots]
    refine Prod.ext rfl (ext (fun q => ?_) rfl)
    by_cases hq : q = []
    · subst hq
      simp [inserted, put, hl.top]
    · simp [inserted, put, hq]
  | cons first rest =>
    obtain h | ⟨names, attributes, hentry⟩ := ho
    · cases h
    · have hnot : leaf ∉ names := fun hmem => hmissing (hl.below hentry leaf hmem)
      have hself : (t.put (first :: rest ++ [leaf]) ⟨v, []⟩).lookup? (first :: rest) =
          some ⟨.container names, attributes⟩ :=
        (if_neg (concat_ne (first :: rest) leaf).symm).trans hentry
      simp only [insert, link, hself, Value.extend_singleton hnot]
      refine Prod.ext rfl (ext (fun q => ?_) rfl)
      by_cases habove : q = first :: rest
      · subst habove
        rw [inserted_above hentry]
        exact if_pos rfl
      · by_cases hleaf : q = first :: rest ++ [leaf]
        · subst hleaf
          rw [inserted_self]
          simp [put]
        · rw [inserted_of_ne hleaf habove]
          simp only [put, if_neg habove, if_neg hleaf]

/-- A new container keeps a table linked. -/
theorem Linked.inserted (hl : t.Linked) (ho : t.IsOpen above)
    (hnew : t.lookup? (above ++ [leaf]) = none) :
    (t.inserted above leaf (.container [])).Linked where
  top := by
    by_cases habove : above = []
    · subst habove
      simp [Table.inserted, hl.top]
    · rw [inserted_of_ne (by simp) (Ne.symm habove), hl.top]
  above := by
    intro p name hne hcontains
    by_cases hp : p = above
    · subst hp
      obtain h | ⟨names, attributes, hentry⟩ := ho
      · exact absurd h hne
      · exact ⟨_, _, inserted_above hentry⟩
    · obtain heq | hcontains := contains_inserted.1 hcontains
      · exact absurd (List.append_inj' heq rfl).1 hp
      · obtain ⟨names, attributes, hentry⟩ := hl.above hne hcontains
        have hself : p ≠ above ++ [leaf] := by
          rintro rfl
          cases hnew.symm.trans hentry
        exact ⟨names, attributes, (inserted_of_ne hself hp).trans hentry⟩
  below := by
    intro p names attributes hentry name hname
    rw [contains_inserted]
    by_cases hself : p = above ++ [leaf]
    · rw [hself, inserted_self] at hentry
      cases hentry
      cases hname
    · by_cases hp : p = above
      · subst hp
        obtain rfl | ⟨listed, attributes', hlisted⟩ := ho
        · simp [Table.inserted, hl.top] at hentry
        · rw [inserted_above hlisted] at hentry
          cases hentry
          rcases List.mem_append.1 hname with hname | hname
          · exact .inr (hl.below hlisted name hname)
          · exact .inl (by rw [List.mem_singleton.1 hname])
      · rw [inserted_of_ne hself hp] at hentry
        exact .inr (hl.below hentry name hname)
  roots := by
    intro name hname
    rw [contains_inserted]
    simp only [Table.inserted] at hname
    split at hname
    · rename_i habove
      rcases List.mem_append.1 hname with hname | hname
      · exact .inr (hl.roots name hname)
      · exact .inl (by rw [habove, List.mem_singleton.1 hname]; rfl)
    · exact .inr (hl.roots name hname)

/-! ## A value placed -/

/-- What has become of a table once a value was placed at a path. -/
structure Placed (t : Table) (p : Path) (v : Value) (t' : Table) : Prop where
  /-- An entry that was there keeps its kind and its attributes, and holds the value now. -/
  held : ∀ {e}, t.lookup? p = some e →
    e.value.kind = v.kind ∧ t'.lookup? p = some ⟨v.onto e.value, e.attributes⟩
  /-- A new entry has no attributes. -/
  created : t.lookup? p = none → t'.lookup? p = some ⟨v, []⟩
  /-- Where an entry was missing above it there is a container, which lists what follows on the way. -/
  missing : ∀ {q next}, q ≠ [] → q ++ [next] <+: p → t.lookup? q = none →
    t'.lookup? q = some ⟨.container [next], []⟩
  /-- The last entry that was there on the way is a container, and lists what follows behind the others. -/
  last : ∀ {q next e}, q ++ [next] <+: p → t.lookup? q = some e → t.lookup? (q ++ [next]) = none →
    ∃ names, e.value = .container names ∧
      t'.lookup? q = some ⟨.container (names ++ [next]), e.attributes⟩
  /-- When nothing was there on the way, the first name is listed at the top, behind the others. -/
  roots : ∀ {first}, [first] <+: p →
    t'.roots = if t.contains [first] = true then t.roots else t.roots ++ [first]
  /-- All other entries are as they were. -/
  others : ∀ {q}, q ≠ p → (∀ next, q ++ [next] <+: p → t.contains (q ++ [next]) = true) →
    t'.lookup? q = t.lookup? q

/-- Something other than a container stands on the way to a path. -/
def Blocked (t : Table) (p above : Path) (e : Entry) : Prop :=
  above <+: p ∧ above ≠ p ∧ t.lookup? above = some e ∧ e.value.kind ≠ .container

/-- Nothing is in the way of what is missing. -/
theorem Linked.not_blocked (hl : t.Linked) (ho : t.IsOpen above)
    (hnext : t.lookup? (above ++ [next]) = none) (hp : above ++ [next] <+: p) (q : Path) (e : Entry) :
    ¬ t.Blocked p q e := by
  rintro ⟨hq, -, hentry, hkind⟩
  have hne := hl.ne_nil hentry
  obtain hshort | hlong := List.prefix_or_prefix_of_prefix hq hp
  · obtain rfl | hshort := List.prefix_concat_iff.1 hshort
    · cases hnext.symm.trans hentry
    · exact hkind ((hl.isOpen_prefix ho hshort).kind hne hentry)
  · have hmissing := hl.contains_prefix (contains_iff.2 ⟨e, hentry⟩) hlong (by simp)
    exact not_contains_iff.2 hnext hmissing

/-- What is in the way is there once: whatever lies on the way to it is a container. -/
theorem Linked.blocked_unique (hl : t.Linked) {q q' : Path} {e e' : Entry} (h : t.Blocked p q e)
    (h' : t.Blocked p q' e') : q = q' := by
  have hclear : ∀ {a b : Path} {d d' : Entry}, t.Blocked p a d → t.Blocked p b d' → a <+: b → a = b := by
    rintro a b d d' ⟨-, -, ha, hkind⟩ ⟨-, -, hb, -⟩ ⟨rest, rfl⟩
    cases rest with
    | nil => rw [List.append_nil]
    | cons x rest =>
      have ho := hl.isOpen (contains_iff.2 ⟨d', hb⟩)
      exact absurd (ho.kind (hl.ne_nil ha) ha) hkind
  obtain hle | hle := List.prefix_or_prefix_of_prefix h.1 h'.1
  · exact hclear h h' hle
  · exact (hclear h' h hle).symm

/-- A value put at the end of an open path is placed. -/
theorem placed_inserted (hl : t.Linked) (ho : t.IsOpen above)
    (hnew : t.lookup? (above ++ [leaf]) = none) (v : Value) :
    t.Placed (above ++ [leaf]) v (t.inserted above leaf v) := by
  -- Nothing on the way to the new entry is missing but the entry itself.
  have hway : ∀ {q next}, q ++ [next] <+: above ++ [leaf] →
      (q ++ [next] <+: above ∧ t.contains (q ++ [next]) = true) ∨ q = above ∧ next = leaf := by
    intro q next hq
    obtain h | h | ⟨h, -⟩ := hl.way_cases ho hnew List.prefix_rfl hq
    · exact .inl h
    · exact .inr h
    · have hlong := h.length_le
      have hshort := hq.length_le
      simp only [List.length_append, List.length_singleton] at hlong hshort
      omega
  refine ⟨fun he => ?_, fun _ => inserted_self .., fun {q next} hne hq hmissing => ?_,
    fun {q next e} hq he hmissing => ?_, fun {first} hfirst => ?_, fun {q} hself hq => ?_⟩
  · cases hnew.symm.trans he
  · have hcontains : t.contains q = true := by
      obtain ⟨h, -⟩ | ⟨rfl, -⟩ := hway hq
      · exact (hl.isOpen_prefix ho ((List.prefix_append q [next]).trans h)).contains hne
      · exact ho.contains hne
    exact absurd hcontains (not_contains_iff.2 hmissing)
  · obtain ⟨-, h⟩ | ⟨rfl, rfl⟩ := hway hq
    · exact absurd h (not_contains_iff.2 hmissing)
    · obtain rfl | ⟨names, attributes, hentry⟩ := ho
      · exact absurd rfl (hl.ne_nil he)
      · cases hentry.symm.trans he
        exact ⟨names, rfl, inserted_above hentry⟩
  · obtain ⟨h, hcontains⟩ | ⟨rfl, rfl⟩ := hway (q := []) hfirst
    · have hne : above ≠ [] := fun hnil => by simp [hnil] at h
      simp only [List.nil_append] at hcontains
      simp [inserted, hne, hcontains]
    · have hmissing : ¬ t.contains [first] = true := not_contains_iff.2 hnew
      simp [inserted, hmissing]
  · refine inserted_of_ne hself ?_
    rintro rfl
    have hcontains := hq leaf List.prefix_rfl
    exact not_contains_iff.2 hnew hcontains

/-! ## A value placed below a new container -/

section
variable (hl : t.Linked) (ho : t.IsOpen above) (hnew : t.lookup? (above ++ [name]) = none)
  (hp : above ++ [name] <+: p) (h : (t.inserted above name (.container [])).Placed p v t')
include hl ho hnew hp h

/-- A missing container is the one that was made, or it is missing from the next one on. -/
theorem Placed.missing_of_inserted (hnil : q ≠ []) (hq : q ++ [next] <+: p) (hmissing : t.lookup? q = none) :
    t'.lookup? q = some ⟨.container [next], []⟩ := by
  obtain ⟨-, hcontains⟩ | ⟨rfl, -⟩ | ⟨hbehind, -, hnext⟩ := hl.way_cases ho hnew hp hq
  · have hthere := hl.contains_prefix hcontains (List.prefix_append q [next]) hnil
    exact absurd hthere (not_contains_iff.2 hmissing)
  · exact absurd (ho.contains hnil) (not_contains_iff.2 hmissing)
  · have hlater : (t.inserted above name (.container [])).lookup? (q ++ [next]) = none := by
      refine (inserted_behind (hbehind.trans (List.prefix_append q [next])) fun heq => ?_).trans hnext
      have hlong := hbehind.length_le
      have hshort := congrArg List.length heq
      simp only [List.length_append, List.length_singleton] at hlong hshort
      omega
    by_cases hself : q = above ++ [name]
    · subst hself
      obtain ⟨names, hnames, hentry⟩ := h.last hq (inserted_self ..) hlater
      cases hnames
      exact hentry
    · exact h.missing hnil hq ((inserted_behind hbehind hself).trans hmissing)

/-- The last entry that was there is the one above the container that was made. -/
theorem Placed.last_of_inserted (hq : q ++ [next] <+: p) (he : t.lookup? q = some e)
    (hmissing : t.lookup? (q ++ [next]) = none) : ∃ names, e.value = .container names ∧
      t'.lookup? q = some ⟨.container (names ++ [next]), e.attributes⟩ := by
  obtain ⟨-, hcontains⟩ | ⟨rfl, rfl⟩ | ⟨-, hnone, -⟩ := hl.way_cases ho hnew hp hq
  · exact absurd hcontains (not_contains_iff.2 hmissing)
  · obtain rfl | ⟨names, attributes, hentry⟩ := ho
    · exact absurd rfl (hl.ne_nil he)
    · cases hentry.symm.trans he
      refine ⟨names, rfl, (h.others ?_ fun other hother => ?_).trans (inserted_above hentry)⟩
      · rintro rfl
        cases (hl.missing_of_prefix hnew (by simp) hp).symm.trans hentry
      · have hlength : (q ++ [other]).length = (q ++ [next]).length := by simp
        have heq := (List.prefix_of_prefix_length_le hother hp (Nat.le_of_eq hlength)).eq_of_length
          hlength
        exact contains_inserted.2 (.inl heq)
  · cases hnone.symm.trans he

theorem Placed.roots_of_inserted {first : String} (hfirst : [first] <+: p) :
    t'.roots = if t.contains [first] = true then t.roots else t.roots ++ [first] := by
  have hway : [first] <+: above ++ [name] := List.prefix_of_prefix_length_le hfirst hp (by simp)
  have hlinked := hl.inserted ho hnew
  have hthere : (t.inserted above name (.container [])).contains [first] = true :=
    hlinked.contains_prefix (contains_inserted.2 (.inl rfl)) hway (by simp)
  rw [h.roots hfirst, if_pos hthere]
  exact (placed_inserted hl ho hnew _).roots hway

/-- Neither the container that was made nor the entry above it is one of the others. -/
theorem Placed.others_of_inserted (hne : above ++ [name] ≠ p) (hself : q ≠ p)
    (hq : ∀ next, q ++ [next] <+: p → t.contains (q ++ [next]) = true) : t'.lookup? q = t.lookup? q := by
  have hnext : ∀ next, q ++ [next] <+: p →
      (t.inserted above name (.container [])).contains (q ++ [next]) = true :=
    fun next hprefix => contains_inserted.2 (.inr (hq next hprefix))
  refine (h.others hself hnext).trans (inserted_of_ne ?_ ?_)
  · rintro rfl
    obtain ⟨rest, rfl⟩ := hp
    obtain ⟨next, rest, rfl⟩ := List.exists_cons_of_ne_nil (show rest ≠ [] by rintro rfl; simp at hne)
    have hbelow := hl.missing_of_prefix hnew (by simp) (List.prefix_append (above ++ [name]) [next])
    exact not_contains_iff.2 hbelow (hq next ⟨rest, by simp⟩)
  · rintro rfl
    exact not_contains_iff.2 hnew (hq name hp)

/-- A value placed after the container above it was made is placed. -/
theorem Placed.of_inserted (hne : above ++ [name] ≠ p) : t.Placed p v t' where
  held he := by cases (hl.missing_of_prefix hnew (by simp) hp).symm.trans he
  created hpnew := h.created ((inserted_behind hp hne.symm).trans hpnew)
  missing := h.missing_of_inserted hl ho hnew hp
  last := h.last_of_inserted hl ho hnew hp
  roots := h.roots_of_inserted hl ho hnew hp
  others := h.others_of_inserted hl ho hnew hp hne

end

/-! ## Growing -/

/-- Growing fails at what is in the way, before anything is changed, or places the value. -/
theorem grow_cases (hl : t.Linked) (ho : t.IsOpen above) (hne : p ≠ [])
    (hnew : t.lookup? (above ++ p) = none) (v : Value) :
    (∃ front e, t.Blocked (above ++ p) front e ∧
      t.grow v above p = (.error (.invalidNamespace front.text), t)) ∨
    ∃ t', (∀ front e, ¬ t.Blocked (above ++ p) front e) ∧ t.grow v above p = (.ok (), t') ∧
      t.Placed (above ++ p) v t' := by
  induction p generalizing t above with
  | nil => exact absurd rfl hne
  | cons name rest ih =>
    cases rest with
    | nil =>
      exact .inr ⟨_, fun front e => hl.not_blocked ho hnew List.prefix_rfl front e,
        insert_eq hl ho hnew v, placed_inserted hl ho hnew v⟩
    | cons next rest =>
      have hrest := List.cons_ne_nil next rest
      have hsplit : above ++ name :: next :: rest = above ++ [name] ++ next :: rest := by simp
      have hp : above ++ [name] <+: above ++ name :: next :: rest := ⟨next :: rest, hsplit.symm⟩
      have hlonger : above ++ [name] ≠ above ++ name :: next :: rest := by simp
      rw [hsplit] at hnew
      cases hentry : t.lookup? (above ++ [name]) with
      | some e =>
        by_cases hkind : e.value.kind = .container
        · obtain ⟨names, hnames⟩ : ∃ names, e.value = .container names := by
            obtain ⟨value, attributes⟩ := e
            cases value with
            | datum d => cases d <;> cases hkind
            | container names => exact ⟨names, rfl⟩
          have hopen : t.IsOpen (above ++ [name]) :=
            .inr ⟨names, e.attributes, by rw [hentry, ← hnames]⟩
          have hgrow := ih hl hopen hrest hnew
          simp only [grow, hentry, if_pos hkind, hsplit]
          exact hgrow
        · refine .inl ⟨above ++ [name], e, ⟨hp, hlonger, hentry, hkind⟩, ?_⟩
          simp only [grow, hentry, if_neg hkind]
      | none =>
        -- From the container that is made here on nothing is there, so nothing can be in the way.
        have hlinked := hl.inserted ho hentry
        have hopen : (t.inserted above name (.container [])).IsOpen (above ++ [name]) :=
          .inr ⟨[], [], inserted_self ..⟩
        have hmissing : ∀ {q : Path}, above ++ [name] <+: q → q.length ≠ above.length + 1 →
            (t.inserted above name (.container [])).lookup? q = none := by
          intro q hq hlength
          have hlong := hq.length_le
          rw [List.length_append, List.length_singleton] at hlong
          rw [inserted_of_ne (by rintro rfl; simp at hlength) (by rintro rfl; omega)]
          exact hl.missing_of_prefix hentry (by simp) hq
        obtain ⟨front, e, hblocked, -⟩ | ⟨t', -, hgrow, hplaced⟩ :=
          ih hlinked hopen hrest (hmissing (List.prefix_append ..) (by simp))
        · have hnext := hmissing (q := above ++ [name] ++ [next]) (List.prefix_append ..) (by simp)
          exact absurd hblocked (hlinked.not_blocked hopen hnext ⟨rest, by simp⟩ front e)
        · refine .inr ⟨t', fun front e => hl.not_blocked ho hentry hp front e, ?_, ?_⟩
          · simp only [grow, hentry, insert_eq hl ho hentry, hgrow]
          · rw [← hsplit] at hplaced
            exact hplaced.of_inserted hl ho hentry hp hlonger

end Table
end Registry
end Lockstep
