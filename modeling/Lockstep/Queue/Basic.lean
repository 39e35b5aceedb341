import Lockstep.Queue.Payload
import Lockstep.Queue.Stamp

/- The event queue: payloads in the order of their stamps.

   1. The stamps of a queue rise strictly, so no two events share one; this is part of the type.
   2. `place` puts an event at the first free stamp from a given one on, within its microsecond. A
      microsecond holds 2 ^ 32 stamps; when those from the given one on are taken, there is no place.
   3. `pushAt` asks for the first stamp of a microsecond, and `merge` pushes the events of another
      queue, in their order, each at its own microsecond. -/
namespace Lockstep

/-- An event: a stamp and what it carries. -/
abbrev Event := Stamp × Payload

/-- Events whose stamps rise. -/
def Rising (items : List Event) : Prop := items.Pairwise fun a b => a.1 < b.1

structure Queue where
  items : List Event
  rising : Rising items

namespace Queue

inductive Error where
  | malformedHeader
  | corrupted (expected found : Nat)
  | invalidStamp (text : String)
  /-- No stamp is left within a microsecond. -/
  | full (micros : UInt64)
deriving DecidableEq, Repr

def Error.message : Error → String
  | malformedHeader => "queue header is missing or malformed"
  | corrupted expected found =>
    s!"queue corrupted: header announced {expected} items, parsed {found}"
  | invalidStamp text => s!"invalid timestamp: {Text.quoted text}"
  | full micros => s!"no sequence number left at microsecond {micros.toNat}"

@[ext] theorem ext {q q' : Queue} (h : q.items = q'.items) : q = q' := by
  cases q
  cases q'
  simpa using h

/-! ## Placing an event -/

/-- `items` with a payload at the first free stamp from `s` on. -/
def placeIn (s : Stamp) (p : Payload) : List Event → Option (Stamp × List Event)
  | [] => some (s, [(s, p)])
  | item :: rest =>
    if s < item.1 then some (s, (s, p) :: item :: rest)
    else if s = item.1 then
      match s.next? with
      | none => none
      | some s' => (placeIn s' p rest).map fun placed => (placed.1, item :: placed.2)
    else (placeIn s p rest).map fun placed => (placed.1, item :: placed.2)

theorem lt_of_mem_placeIn {s t bound : Stamp} {p : Payload} {items placed : List Event}
    (h : placeIn s p items = some (t, placed)) (hs : bound < s)
    (hitems : ∀ item ∈ items, bound < item.1) : ∀ item ∈ placed, bound < item.1 := by
  induction items generalizing s placed with
  | nil =>
    cases h
    simpa using hs
  | cons item rest ih =>
    have hrest := fun i hi => hitems i (List.mem_cons_of_mem item hi)
    have hitem := hitems item List.mem_cons_self
    unfold placeIn at h
    split at h
    · cases h
      intro i hi
      rcases List.mem_cons.1 hi with rfl | hi
      · exact hs
      · exact hitems i hi
    · split at h
      · split at h
        · cases h
        · rename_i s' hn
          obtain ⟨⟨t', placed'⟩, hp, he⟩ := Option.map_eq_some_iff.1 h
          cases he
          intro i hi
          rcases List.mem_cons.1 hi with rfl | hi
          · exact hitem
          · exact ih hp (Stamp.lt_trans hs (Stamp.lt_of_next?_eq_some hn)) hrest i hi
      · obtain ⟨⟨t', placed'⟩, hp, he⟩ := Option.map_eq_some_iff.1 h
        cases he
        intro i hi
        rcases List.mem_cons.1 hi with rfl | hi
        · exact hitem
        · exact ih hp hs hrest i hi

/-- Placing keeps the stamps rising. -/
theorem rising_placeIn {s t : Stamp} {p : Payload} {items placed : List Event}
    (h : placeIn s p items = some (t, placed)) (hr : Rising items) : Rising placed := by
  induction items generalizing s placed with
  | nil =>
    cases h
    simp [Rising]
  | cons item rest ih =>
    obtain ⟨hitem, hrest⟩ := List.pairwise_cons.1 hr
    unfold placeIn at h
    split at h
    · rename_i hlt
      cases h
      refine List.pairwise_cons.2 ⟨fun i hi => ?_, hr⟩
      rcases List.mem_cons.1 hi with rfl | hi
      · exact hlt
      · exact Stamp.lt_trans hlt (hitem i hi)
    · rename_i hnot
      split at h
      · rename_i heq
        split at h
        · cases h
        · rename_i s' hn
          obtain ⟨⟨t', placed'⟩, hp, he⟩ := Option.map_eq_some_iff.1 h
          cases he
          exact List.pairwise_cons.2
            ⟨lt_of_mem_placeIn hp (heq ▸ Stamp.lt_of_next?_eq_some hn) hitem, ih hp hrest⟩
      · rename_i hne
        obtain ⟨⟨t', placed'⟩, hp, he⟩ := Option.map_eq_some_iff.1 h
        cases he
        exact List.pairwise_cons.2
          ⟨lt_of_mem_placeIn hp (Stamp.lt_of_not_lt hnot hne) hitem, ih hp hrest⟩

/-- An event at the first free stamp from `s` on, with the stamp it got. -/
def place (q : Queue) (s : Stamp) (p : Payload) : Except Error (Stamp × Queue) :=
  match h : placeIn s p q.items with
  | some (t, items) => .ok (t, ⟨items, rising_placeIn h q.rising⟩)
  | none => .error (.full s.micros)

/-! ## Operations -/

/-- The queue without events. -/
def empty : Queue := ⟨[], List.Pairwise.nil⟩

instance : Inhabited Queue := ⟨empty⟩

/-- The number of events. -/
def size (q : Queue) : Nat := q.items.length

/-- An event at the first free stamp of a microsecond. -/
def pushAt (q : Queue) (micros : UInt64) (p : Payload) : Except Error (Stamp × Queue) :=
  q.place ⟨micros, 0⟩ p

/-- The first event. -/
def first? (q : Queue) : Option Event := q.items.head?

/-- The queue without its first event. -/
def pop (q : Queue) : Queue := ⟨q.items.tail, List.Pairwise.tail q.rising⟩

/-- Events placed one after the other. -/
def placeAll (q : Queue) : List Event → Except Error Queue
  | [] => .ok q
  | (s, p) :: rest =>
    match q.place s p with
    | .error e => .error e
    | .ok (_, q') => placeAll q' rest

/-- The queue with the events of another, each at its microsecond. -/
def merge (q other : Queue) : Except Error Queue :=
  q.placeAll (other.items.map fun item => (⟨item.1.micros, 0⟩, item.2))

end Queue
end Lockstep
