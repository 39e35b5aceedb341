import Lockstep.Proofs.Registry.Nesting
import Lockstep.Proofs.Registry.Reread
import Lockstep.Queue.Payload

/- Registries read back from their markup.

   1. Legible data are read again as they were, so a forest of legible nodes is its own rereading
      (`reread_eq_self`).
   2. `SameEntries` is what can be seen of two registries with the same entries. A reachable registry
      that is `Legible` is read back from either of its texts with the same entries. -/
namespace Lockstep.Registry
open Markup Forest

/-! ## Legible nodes -/

/-- A node whose datum is legible with the separator of its attributes. -/
def Node.Legible : Node → Prop
  | .leaf _ attributes datum => datum.Legible (separatorOf attributes)
  | .branch .. => True

/-- A node whose datum is read again as it was. -/
def Node.SelfReading : Node → Prop
  | .leaf _ attributes datum => datum.reread (separatorOf attributes) = datum
  | .branch .. => True

theorem Node.Legible.selfReading {n : Node} (h : n.Legible) : n.SelfReading := by
  cases n with
  | leaf name attributes datum => exact Datum.reread_eq_self h
  | branch name attributes children => trivial

mutual

theorem Node.reread_eq_self (n : Node) {above : Path} (hl : n.SelfReading)
    (hbelow : ∀ found ∈ Forest.listing above n.children, found.2.SelfReading) : n.reread = n := by
  cases n with
  | leaf name attributes datum =>
    have hl : datum.reread (separatorOf attributes) = datum := hl
    rw [Node.reread, hl]
  | branch name attributes children => rw [Node.reread, Forest.reread_eq_self children hbelow]

/-- A forest whose data are all read again as they were is read again as it was. -/
theorem Forest.reread_eq_self (f : Forest) {above : Path}
    (hl : ∀ found ∈ Forest.listing above f, found.2.SelfReading) : Forest.reread f = f := by
  cases f with
  | nil => rfl
  | cons n f =>
    obtain ⟨hself, hbelow, hrest⟩ := forall_mem_listing_cons hl
    rw [Forest.reread, n.reread_eq_self hself hbelow, Forest.reread_eq_self f hrest]

end

/-! ## Whole registries -/

/-- A registry whose markup can stand in an element: its names are not too deep for that, and its
    attributes have keys that can be written. -/
structure Enclosable (r : Registry) : Prop where
  depth : ∀ {p e}, r.entry? p = some e → p.length ≤ 255
  keys : ∀ {p e}, r.entry? p = some e → NamedKeys e.attributes

/-- A registry whose markup tells its entries apart from all others. -/
structure Legible (r : Registry) : Prop extends Enclosable r where
  data : ∀ {p d attributes}, r.entry? p = some ⟨.datum d, attributes⟩ →
    d.Legible (separatorOf attributes)

/-- Two registries with the same entries: the same names, the same values and attributes at each, the
    children of every container and the top-level entries in the same order. -/
structure SameEntries (r r' : Registry) : Prop where
  names : r.names = r'.names
  entries : ∀ p, r.entry? p = r'.entry? p
  roots : r.roots = r'.roots

theorem sameEntries_of_forest {r r' : Registry} (h : r.forest = r'.forest) : SameEntries r r' := by
  refine ⟨?_, fun p => ?_, ?_⟩
  · rw [names, names, sorted, sorted, h]
  · unfold entry?
    rw [h]
  · rw [roots, roots, h]

section
variable {r : Registry}

theorem Enclosable.keyed (h : r.Enclosable) (hr : Forest.Tidy r.forest) :
    Forest.Keyed r.forest := keyed_of_entries hr h.keys

theorem Enclosable.height_le (h : r.Enclosable) (hr : Forest.Tidy r.forest) :
    Forest.height r.forest ≤ maxDepth :=
  Nat.le_trans (height_le_of_entries hr h.depth) (by decide)

theorem Enclosable.placed (h : r.Enclosable) (hr : Forest.Tidy r.forest) :
    ∀ found ∈ Forest.listing [] r.forest, Placed found := by
  intro found hfound
  have hentry := entry?_of_mem_listing hr hfound
  exact ⟨Nat.lt_of_le_of_lt (h.depth hentry) (by decide), h.keys hentry⟩

theorem Legible.listing (h : r.Legible) (hr : Forest.Tidy r.forest) :
    ∀ found ∈ Forest.listing [] r.forest, found.2.Legible := by
  rintro ⟨p, n⟩ hfound
  have hentry := entry?_of_mem_listing hr hfound
  cases n with
  | leaf name attributes datum => exact h.data hentry
  | branch name attributes children => trivial

theorem Legible.reread (h : r.Legible) (hr : Forest.Tidy r.forest) :
    Forest.reread r.forest = r.forest :=
  Forest.reread_eq_self r.forest fun found hfound => (h.listing hr found hfound).selfReading

/-- The text of the top-level entries is read as a registry with the same forest. -/
theorem toRegistry_renderRoots (hr : Forest.Tidy r.forest) (h : r.Legible) :
    (Payload.written r.renderRoots).toRegistry =
      .ok { empty defaultName with forest := r.forest } := by
  obtain ⟨es, hparse, hsaid⟩ := exists_parseAll_renderRoots hr (h.keyed hr) (h.height_le hr)
  obtain ⟨ps, hload⟩ := loadAll_empty hr hsaid defaultName
  rw [h.reread hr] at hload
  simp only [Payload.toRegistry, addAllMarkup, hparse, hload]

/-- The text of all entries is read as a registry with the same forest. -/
theorem ofMarkup_render (hr : Forest.Tidy r.forest) (h : r.Legible)
    (hname : isSegment r.name.toList = true) :
    ofMarkup r.name r.render = .ok { empty r.name with forest := r.forest } := by
  obtain ⟨e, hparse, hename, hattributes, hsaid⟩ := exists_parseAll_render hname hr (h.placed hr)
  have hcontainer : e.attribute? kindKey = some Kind.container.marker := by
    rw [Element.attribute?, hattributes]
    exact if_pos rfl
  have hunwrap : unwrap r.name [e] = e.children := if_pos ⟨hename, hcontainer⟩
  obtain ⟨ps, hload⟩ := loadAll_empty hr hsaid r.name
  rw [h.reread hr] at hload
  simp only [ofMarkup, hparse, hunwrap, hload]

end

/-- The same on the flat table: what is written from the lists of names is the same table once it was
    linked again name by name. -/
theorem Ledger.addAllMarkup_writeRoots {r : Registry} (hr : Registry.Reachable r) (h : r.Legible) :
    ∃ depth cs, (Ledger.of r).table.writeRoots depth = some (.ok cs) ∧
      (Ledger.empty defaultName).perform (.addAllMarkup (String.ofList cs)) =
        (none, { Ledger.empty defaultName with table := (Ledger.of r).table }) := by
  have htidy := (tidy_of_reachable hr).forest
  refine ⟨Forest.height r.forest, Forest.chars r.forest, ?_, ?_⟩
  · exact (Table.writeRoots_of htidy _).trans (if_pos (Nat.le_refl _))
  · obtain ⟨es, hparse, hsaid⟩ := exists_parseAll_renderRoots htidy (h.keyed htidy) (h.height_le htidy)
    obtain ⟨ps, hload⟩ := loadAll_empty htidy hsaid defaultName
    rw [h.reread htidy] at hload
    rw [← Ledger.of_empty, Ledger.perform_of, Registry.perform, addAllMarkup]
    rw [show String.ofList (Forest.chars r.forest) = r.renderRoots from rfl, hparse]
    dsimp only
    rw [hload]
    rfl

/-- A reachable registry that is legible is read back, from the text of its top-level entries as well
    as from that of all entries, with the same entries. -/
theorem read_back {r : Registry} (hr : Reachable r) (h : r.Legible)
    (hname : isSegment r.name.toList = true) :
    ∃ r₁ r₂, (Payload.written r.renderRoots).toRegistry = .ok r₁ ∧
      ofMarkup r.name r.render = .ok r₂ ∧ SameEntries r r₁ ∧ SameEntries r r₂ :=
  have htidy := (tidy_of_reachable hr).forest
  ⟨_, _, toRegistry_renderRoots htidy h, ofMarkup_render htidy h hname,
    sameEntries_of_forest rfl, sameEntries_of_forest rfl⟩

/-! ## A registry of every kind -/

instance (n : Node) : Decidable n.Legible :=
  match n with
  | .leaf _ _ (.float x) => inferInstanceAs (Decidable (x.isNaN = false))
  | .leaf _ attributes (.ints ns) =>
    List.decidableBAll (fun n => separatorOf attributes ∉ Numeral.int32Chars n) ns
  | .leaf _ attributes (.floats xs) =>
    List.decidableBAll
      (fun x : Binary32 => x.isNaN = false ∧ separatorOf attributes ∉ Binary32.chars x) xs
  | .leaf _ attributes (.texts _) => inferInstanceAs (Decidable (separatorOf attributes ≠ '\\'))
  | .leaf _ _ .empty | .leaf _ _ (.int _) | .leaf _ _ (.text _) | .branch .. => isTrue trivial

/-- What is listed is all that a registry has to be legible in. -/
theorem legible_of_listing {r : Registry} (h : ∀ found ∈ Forest.listing [] r.forest,
    found.1.length ≤ 255 ∧ NamedKeys found.2.attributes ∧ found.2.Legible) : r.Legible := by
  refine ⟨⟨fun he => ?_, fun he => ?_⟩, fun he => ?_⟩
  · obtain ⟨n, hn, -⟩ := exists_mem_listing he
    exact (h _ hn).1
  · obtain ⟨n, hn, rfl⟩ := exists_mem_listing he
    exact (h _ hn).2.1
  · obtain ⟨n, hn, hentry⟩ := exists_mem_listing he
    have hlegible := (h _ hn).2.2
    cases n with
    | leaf name attributes datum =>
      cases hentry
      exact hlegible
    | branch name attributes children => cases hentry

/-- Numbers next to zero and to infinity, texts with blanks, quotes, brackets and separators, the list
    of one empty text, a container without children, a separator and an attribute with entities. -/
def assorted : Registry := (Registry.empty "index").after
  [.add "/zone/mass" (.datum (.float ⟨0x80000000⟩)),
    .add "/zone/limits" (.datum (.floats [⟨1⟩, ⟨0x7f800000⟩, ⟨0x3dcccccd⟩])),
    .setAttribute "/zone/limits" "separator" ";",
    .add "/note" (.datum (.text "  a <b> & \"c\" ")),
    .setAttribute "/note" "unit" "\"m\" & <s>",
    .add "/zone/labels" (.datum (.texts ["", "a,b", "\\"])),
    .add "/alone" (.datum (.texts [""])),
    .add "/zone/none" (.container []),
    .add "/zone/counts" (.datum (.ints [-2147483648, 7]))]

theorem read_back_assorted :
    assorted.roots = ["zone", "note", "alone"] ∧ assorted.size = 8 ∧
    ∃ r₁ r₂, (Payload.written assorted.renderRoots).toRegistry = .ok r₁ ∧
      ofMarkup assorted.name assorted.render = .ok r₂ ∧
      SameEntries assorted r₁ ∧ SameEntries assorted r₂ :=
  ⟨by decide +kernel, by decide +kernel, read_back ((Reachable.empty "index").after _)
    (legible_of_listing (by decide +kernel)) (by decide +kernel)⟩

end Lockstep.Registry
