import Lockstep.Proofs.Registry.Tidy

/- The table of a registry is whole.

   1. `Table.Sound`: names are valid, every entry is listed exactly once by the container above it or
      at the top, and nothing else is listed. `Table.Closed`: no look-up that starts at an entry fails,
      so the entry can be written out and its children can be listed.
   2. The table of a tidy forest is both (`sound_of`, `closed_of`); writing it out gives the markup
      of the forest, once the depth is at least the height (`write_of`).
   3. `Ledger.sound_of_reachable`: so is the table of every ledger that operations lead to, and so are
      the saved ones, also after operations that failed halfway. -/
namespace Lockstep.Registry
open Forest

namespace Table

/-- Entries and the names that are listed agree. -/
structure Sound (t : Table) : Prop where
  /-- Every name is a valid absolute name. -/
  named : ∀ {p e}, t.lookup? p = some e → ∀ scope, Path.ofName p.text scope = .ok p
  /-- Above an entry that is not at the top is a container, which lists it once. -/
  listed : ∀ {above leaf}, above ≠ [] → t.contains (above ++ [leaf]) = true →
    ∃ names attributes, t.lookup? above = some ⟨.container names, attributes⟩ ∧ names.count leaf = 1
  /-- A container lists entries right below it, each once. -/
  lists : ∀ {p names attributes}, t.lookup? p = some ⟨.container names, attributes⟩ →
    names.Nodup ∧ ∀ name ∈ names, t.contains (p ++ [name]) = true
  /-- The entries at the top are listed once, and nothing else is. -/
  roots : t.roots.Nodup ∧ ∀ name, name ∈ t.roots ↔ t.contains [name] = true

/-- No look-up fails that starts from an entry or from the top. -/
structure Closed (t : Table) : Prop where
  /-- An entry is what its absolute name means. -/
  resolve : ∀ {p}, t.contains p = true → ∀ scope, t.resolve p.text scope = .ok p
  /-- An entry that a name means is written out, once it is followed far enough. -/
  writeIn : ∀ {name scope p}, t.resolve name scope = .ok p →
    (∃ depth cs, t.writeIn depth name scope = some (.ok cs)) ∧
      ∀ depth e, t.writeIn depth name scope ≠ some (.error e)
  writeRoots : (∃ depth cs, t.writeRoots depth = some (.ok cs)) ∧
    ∀ depth e, t.writeRoots depth ≠ some (.error e)
  childrenIn : ∀ {name scope p}, t.resolve name scope = .ok p →
    ∀ missing, t.childrenIn name scope ≠ .error (.notFound missing)

end Table

/-! ## Writing -/

mutual

/-- How many levels a node has, itself included. -/
def Node.height : Node → Nat
  | .leaf .. => 1
  | .branch _ _ children => Forest.height children + 1

/-- How many levels the highest node has. -/
def Forest.height : List Node → Nat
  | [] => 0
  | n :: forest => max n.height (Forest.height forest)

end

namespace Table
variable {f : Forest}

theorem inTurn_of_write (write : String → Option (Except Error (List Char))) (depth : Nat)
    (nodes : Forest) (h : ∀ n ∈ nodes,
      write n.name = if n.height ≤ depth then some (.ok n.chars) else none) :
    inTurn ((nodes.map Node.name).map write) =
      if Forest.height nodes ≤ depth then some (.ok (Forest.chars nodes)) else none := by
  induction nodes with
  | nil => rfl
  | cons n nodes ih =>
    have hfirst := h n List.mem_cons_self
    have hrest := ih fun m hm => h m (List.mem_cons_of_mem n hm)
    simp only [List.map_cons, hfirst, Forest.height, Nat.max_le, Forest.chars]
    by_cases hn : n.height ≤ depth
    · rw [if_pos hn, inTurn, hrest]
      by_cases hnodes : Forest.height nodes ≤ depth
      · rw [if_pos hnodes, if_pos ⟨hn, hnodes⟩]
        rfl
      · rw [if_neg hnodes, if_neg fun hall => hnodes hall.2]
        rfl
    · rw [if_neg hn, if_neg fun hall => hn hall.1]
      rfl

/-- Followed far enough, an entry is written as its node; otherwise there is more below. -/
theorem write_of (hf : Forest.Tidy f) (depth : Nat) {p : Path} {n : Node} (hn : get? p f = some n) :
    (of f).write depth p = if n.height ≤ depth then some (.ok n.chars) else none := by
  induction depth generalizing p n with
  | zero =>
    have hpos : ¬ n.height ≤ 0 := by cases n <;> simp [Node.height]
    rw [if_neg hpos]
    rfl
  | succ depth ih =>
    obtain ⟨htidy, hlast⟩ := hf.get? hn
    have hname : p.getLastD "" = n.name := by rw [List.getLastD_eq_getLast?, hlast]; rfl
    simp only [write, lookup?_of_get? hn, hname]
    cases n with
    | leaf name attributes datum =>
      rw [if_pos (by simp [Node.height])]
      rfl
    | branch name attributes children =>
      have hbelow : below p f = children := below_of_get? (ne_nil_of_get? hn) hn
      have hchildren : Forest.Tidy children := htidy.2.2
      -- One level less is left for the children, which is what the induction is on.
      have hwrite := inTurn_of_write (fun child => (of f).write depth (p ++ [child])) depth children
        fun m hm =>
          ih (by rw [get?_concat, hbelow]; exact hchildren.child?_name hm)
      show (inTurn _).map _ = _
      rw [show (Node.branch name attributes children).entry.value =
        .container (children.map Node.name) from rfl] at *
      simp only [Node.height, Nat.add_le_add_iff_right]
      rw [hwrite]
      by_cases hheight : Forest.height children ≤ depth
      · rw [if_pos hheight, if_pos hheight]
        rfl
      · rw [if_neg hheight, if_neg hheight]
        rfl

theorem writeRoots_of (hf : Forest.Tidy f) (depth : Nat) :
    (of f).writeRoots depth =
      if Forest.height f ≤ depth then some (.ok (Forest.chars f)) else none :=
  inTurn_of_write (fun name => (of f).write depth [name]) depth f fun _ hm =>
    write_of hf depth (hf.child?_name hm)

/-! ## Names and what is listed -/

theorem exists_of_contains {p : Path} (h : (of f).contains p = true) : ∃ n, get? p f = some n := by
  obtain ⟨e, he⟩ := Option.isSome_iff_exists.1 h
  obtain ⟨n, hn, -⟩ := Option.map_eq_some_iff.1 he
  exact ⟨n, hn⟩

theorem contains_of_get? {p : Path} {n : Node} (h : get? p f = some n) :
    (of f).contains p = true := by
  rw [contains, lookup?_of_get? h]
  rfl

/-- A container entry is a branch with the nodes that it lists. -/
theorem exists_branch {p : Path} {names : List String} {attributes : Attributes}
    (h : (of f).lookup? p = some ⟨.container names, attributes⟩) :
    ∃ name children, get? p f = some (.branch name attributes children) ∧
      names = children.map Node.name := by
  obtain ⟨n, hn, he⟩ := Option.map_eq_some_iff.1 h
  cases n with
  | leaf name attributes' datum => cases he
  | branch name attributes' children =>
    cases he
    exact ⟨name, children, hn, rfl⟩

theorem contains_concat_of_mem (hf : Forest.Tidy f) {p : Path} {n : Node}
    (hn : n ∈ below p f) : (of f).contains (p ++ [n.name]) = true :=
  contains_of_get? (n := n) (by rw [get?_concat]; exact (hf.below p).child?_name hn)

/-- An entry with more than one segment lies in a container. -/
theorem exists_above {above : Path} {leaf : String} (hne : above ≠ [])
    (h : (of f).contains (above ++ [leaf]) = true) :
    ∃ name attributes children, get? above f = some (.branch name attributes children) ∧
      leaf ∈ children.map Node.name := by
  obtain ⟨n, hn⟩ := exists_of_contains h
  rw [get?_concat, below_eq hne] at hn
  cases habove : get? above f with
  | none =>
    rw [habove] at hn
    cases hn
  | some m =>
    rw [habove] at hn
    cases m with
    | leaf => cases hn
    | branch name attributes children =>
      have hmem : n ∈ children := mem_of_child? hn
      exact ⟨name, attributes, children, rfl, name_of_child? hn ▸ List.mem_map_of_mem hmem⟩

theorem sound_of (hf : Forest.Tidy f) : (of f).Sound where
  named := by
    intro p e he scope
    obtain ⟨n, hn, -⟩ := Option.map_eq_some_iff.1 he
    exact Path.ofName_text (ne_nil_of_get? hn) (hf.wellFormed (by rw [hn]; exact Option.some_ne_none n)) scope
  listed := by
    intro above leaf hne hcontains
    obtain ⟨name, attributes, children, hn, hmem⟩ := exists_above hne hcontains
    refine ⟨children.map Node.name, attributes, lookup?_of_get? hn, ?_⟩
    have htidy : Forest.Tidy children := (hf.get? hn).1.2.2
    rw [htidy.nodup.count, if_pos hmem]
  lists := by
    intro p names attributes hentry
    obtain ⟨name, children, hn, rfl⟩ := exists_branch hentry
    have htidy : Forest.Tidy children := (hf.get? hn).1.2.2
    refine ⟨htidy.nodup, fun child hchild => ?_⟩
    obtain ⟨m, hm, rfl⟩ := List.mem_map.1 hchild
    exact contains_concat_of_mem hf (by rw [below_of_get? (ne_nil_of_get? hn) hn]; exact hm)
  roots := by
    refine ⟨hf.nodup, fun name => ⟨fun hname => ?_, fun hcontains => ?_⟩⟩
    · obtain ⟨m, hm, rfl⟩ := List.mem_map.1 hname
      exact contains_concat_of_mem (p := []) hf hm
    · obtain ⟨n, hn⟩ := exists_of_contains hcontains
      exact name_of_child? hn ▸ List.mem_map_of_mem (mem_of_child? hn)

theorem exists_of_resolve_of {name scope : String} {p : Path}
    (h : (of f).resolve name scope = .ok p) : ∃ n, get? p f = some n := by
  have hresolve := resolve_of ⟨"", f, [], []⟩ name scope
  rw [show (of f).resolve name scope = _ from hresolve] at h
  exact exists_of_resolve h

theorem closed_of (hf : Forest.Tidy f) : (of f).Closed where
  resolve := by
    intro p hcontains scope
    obtain ⟨n, hn⟩ := exists_of_contains hcontains
    have hne := ne_nil_of_get? hn
    have hname := Path.ofName_text hne (hf.wellFormed (by rw [hn]; exact Option.some_ne_none n)) "/"
    rw [Table.resolve, if_pos (by rw [Path.toList_text hne]; rfl), hname]
    exact if_pos hcontains
  writeIn := by
    intro name scope p hp
    obtain ⟨n, hn⟩ := exists_of_resolve_of hp
    have hwrite : ∀ depth, (of f).writeIn depth name scope =
        if n.height ≤ depth then some (.ok n.chars) else none := by
      intro depth
      rw [Table.writeIn, hp]
      exact write_of hf depth hn
    refine ⟨⟨n.height, n.chars, by rw [hwrite, if_pos (Nat.le_refl _)]⟩, fun depth e => ?_⟩
    rw [hwrite]
    split <;> simp
  writeRoots := by
    have hwrite := writeRoots_of hf
    refine ⟨⟨Forest.height f, Forest.chars f, by rw [hwrite, if_pos (Nat.le_refl _)]⟩,
      fun depth e => ?_⟩
    rw [hwrite]
    split <;> simp
  childrenIn := by
    intro name scope p hp missing
    obtain ⟨n, hn⟩ := exists_of_resolve_of hp
    simp only [Table.childrenIn, hp, childrenAt, lookup?_of_get? hn]
    split <;> simp

end Table

/-! ## Every ledger that may be found -/

/-- Whatever operations led to it, and whatever errors they ended with: a ledger is that of a
    registry, and its table and the saved ones are sound and closed. -/
theorem Ledger.sound_of_reachable {l : Ledger} (h : l.Reachable) :
    (∃ r, Registry.Reachable r ∧ l = .of r) ∧
      ∀ t ∈ l.table :: l.saved, t.Sound ∧ t.Closed := by
  obtain ⟨r, hr, rfl⟩ := Ledger.reachable_iff.1 h
  have htidy := tidy_of_reachable hr
  refine ⟨⟨r, hr, rfl⟩, fun t ht => ?_⟩
  rcases List.mem_cons.1 ht with rfl | ht
  · exact ⟨Table.sound_of htidy.forest, Table.closed_of htidy.forest⟩
  · obtain ⟨forest, hforest, rfl⟩ := List.mem_map.1 ht
    have hsaved := htidy.saved forest hforest
    exact ⟨Table.sound_of hsaved, Table.closed_of hsaved⟩

/-- An entry below a number, an element whose second child is of another kind than the first of that
    name, and a container with a child that is not there: each of the last three fails, the second
    after it added a container and one child. -/
def halting : List Operation :=
  [.add "/a/b" (.datum (.int 1)), .saveState, .add "/a/b/c" (.datum .empty),
    .addAllMarkup "<m><n>1</n><n type='float'>2</n></m><o/>", .addIn "a" "/" (.container ["c"])]

theorem Ledger.sound_after_halting :
    ((Ledger.empty "index").after halting).table.contains ["m", "n"] = true ∧
      ((Ledger.empty "index").after halting).table.contains ["o"] = false ∧
      ∀ t ∈ ((Ledger.empty "index").after halting).table ::
        ((Ledger.empty "index").after halting).saved, t.Sound ∧ t.Closed :=
  ⟨by decide +kernel, by decide +kernel,
    (Ledger.sound_of_reachable ((Ledger.Reachable.empty "index").after halting)).2⟩

end Lockstep.Registry
