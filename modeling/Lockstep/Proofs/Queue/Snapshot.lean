import Lockstep.Proofs.Queue.Canonical
import Lockstep.Proofs.Registry.RoundTrip

/- Snapshots in a queue's text.

   1. The markup of a registry can stand in an item, whatever names its entries have
      (`Registry.isContent_renderRoots`), also those of the tags of a queue.
   2. The first element of that markup has the name of the first top-level entry, and without entries
      there is no element (`Payload.name?_written_renderRoots`).
   3. So events that carry snapshots are read from the text of their queue at the stamps that they
      have, with the texts and the names of the snapshots (`Queue.parse_render_snapshots`). -/
namespace Lockstep

namespace Registry
open Markup Forest

/-- The markup of a registry can stand in an element that is in no other. -/
theorem isContent_renderRoots {r : Registry} (hr : Reachable r) (h : r.Enclosable) :
    IsContent 1 r.renderRoots.toList := by
  have htidy := (tidy_of_reachable hr).forest
  rw [renderRoots, String.toList_ofList]
  exact isContent_chars htidy (h.placed htidy)

theorem Node.SaidBy.name {n : Node} {e : Element} (h : n.SaidBy e) : e.name = n.name := by
  cases n with
  | leaf name attributes datum => exact h.1
  | branch name attributes children => exact h.1

/-- In front of the markup of a node, an element of its name is read. -/
theorem exists_readNext_chars {n : Node} (ht : n.Tidy) (hkeys : NamedKeys n.attributes)
    {below : Path} (hp : ∀ found ∈ Forest.listing below n.children, Placed found) (pos : Nat)
    (rest : List Char) :
    ∃ e after, readNext ⟨pos, n.chars ++ rest⟩ = .ok (e, after) ∧ e.name = n.name := by
  obtain ⟨e, helement, hsaid⟩ := exists_element_chars n 0 pos ht hkeys hp (Nat.zero_le _)
  obtain ⟨c, tail, hchars, -⟩ := exists_chars_cons ht
  have hcons : n.chars ++ rest = '<' :: c :: (tail ++ rest) := by rw [hchars]; rfl
  refine ⟨e, ⟨pos + Text.byteSize n.chars, rest⟩, ?_, hsaid.name⟩
  have hread := helement.readElement rest
  rw [readNext, skipMisc_chars_append ht]
  rw [hcons] at hread ⊢
  exact hread

/-- Where the text ends there is no element. -/
theorem readNext_nil (pos : Nat) : readNext ⟨pos, []⟩ = .error ⟨pos, .expectedElement⟩ := by
  have hskip : skipMisc ⟨pos, []⟩ = .ok ⟨pos, []⟩ := by
    rw [skipMisc]
    rfl
  rw [readNext, hskip]
  rfl

end Registry

/-- The text of a snapshot has the name of the snapshot. -/
theorem Payload.name?_written_renderRoots {r : Registry} (hr : Registry.Reachable r)
    (h : r.Enclosable) : (written r.renderRoots).name? = (snapshot r).name? := by
  have htidy := (Registry.tidy_of_reachable hr).forest
  have hplaced := h.placed htidy
  rw [name?, name?, Markup.parseFirst, Markup.Cursor.start, Registry.renderRoots,
    String.toList_ofList, Registry.roots]
  cases hforest : r.forest with
  | nil =>
    rw [Registry.Forest.chars, Registry.readNext_nil]
    rfl
  | cons n f =>
    rw [hforest] at htidy hplaced
    obtain ⟨⟨-, hkeys⟩, hbelow, -⟩ := Registry.Forest.forall_mem_listing_cons hplaced
    obtain ⟨e, after, hread, hname⟩ :=
      Registry.exists_readNext_chars htidy.1 hkeys hbelow 0 (Registry.Forest.chars f)
    rw [Registry.Forest.chars, hread]
    exact congrArg some hname

namespace Queue

/-- Every event carries a snapshot of a registry that can stand in markup. -/
def Snapshots (q : Queue) : Prop :=
  ∀ e ∈ q.items, ∃ r, e.2 = .snapshot r ∧ Registry.Reachable r ∧ r.Enclosable

theorem Snapshots.readable {q : Queue} (h : q.Snapshots) : q.Readable := by
  intro e he
  obtain ⟨r, hpayload, hr, hencloses⟩ := h e he
  rw [hpayload]
  exact Registry.isContent_renderRoots hr hencloses

/-- A queue of snapshots is read from its text, as long as a machine word can count its events. It comes
    back with the same stamps in the same order, and with the texts and the names of the snapshots. -/
theorem parse_render_snapshots {q : Queue} (h : q.Snapshots) (hs : q.size < 2 ^ 64) :
    ∃ q', parse q.render = .ok q' ∧ q'.items.map Prod.fst = q.items.map Prod.fst ∧
      q'.items.map (fun e => e.2.text) = q.items.map (fun e => e.2.text) ∧
      q'.items.map (fun e => e.2.name?) = q.items.map fun e => e.2.name? := by
  refine ⟨q.written, parse_render h.readable hs, ?_, ?_, ?_⟩
  · exact List.map_map ..
  · exact List.map_map ..
  · refine (List.map_map ..).trans (List.map_congr_left fun e he => ?_)
    obtain ⟨r, hpayload, hr, hencloses⟩ := h e he
    show (Payload.written e.2.text).name? = e.2.name?
    rw [hpayload]
    exact Payload.name?_written_renderRoots hr hencloses

/-- A registry with the names of a queue's tags, an attribute of the same key as the count of items, and
    a text that would close an item and open another. -/
def boxed : Registry := (Registry.empty "Event").after
  [.add "/Item" (.container []),
    .add "/Item/Queue" (.datum (.text "</Item><Item timeStamp=\"0-000\">")),
    .setAttribute "/Item/Queue" "num" "\"7\" & <Queue>",
    .add "/Queue" (.datum (.int 3))]

/-- An event without entries, and two with the same ones, at the two ends of the range of stamps. -/
def boxes : Queue :=
  ⟨[(⟨0, 0⟩, .snapshot boxed), (⟨0, 1⟩, .snapshot (.empty "Event")),
    (⟨.ofNat (2 ^ 64 - 1), .ofNat (2 ^ 32 - 1)⟩, .snapshot boxed)], by
      rw [Rising]
      decide +kernel⟩

theorem parse_render_boxes :
    boxes.Snapshots ∧ boxes.size < 2 ^ 64 ∧ ∃ q', parse boxes.render = .ok q' ∧
      q'.items.map Prod.fst =
        [⟨0, 0⟩, ⟨0, 1⟩, ⟨.ofNat (2 ^ 64 - 1), .ofNat (2 ^ 32 - 1)⟩] ∧
      q'.items.map (fun e => e.2.text) = [boxed.renderRoots, "", boxed.renderRoots] ∧
      q'.items.map (fun e => e.2.name?) = [some "Item", none, some "Item"] := by
  have hboxed : boxed.Enclosable := (Registry.legible_of_listing (by decide +kernel)).toEnclosable
  have hempty : (Registry.empty "Event").Enclosable :=
    (Registry.legible_of_listing (by decide +kernel)).toEnclosable
  have hreachable : Registry.Reachable boxed := (Registry.Reachable.empty "Event").after _
  have hsnapshots : boxes.Snapshots := by
    intro e he
    simp only [boxes, List.mem_cons, List.not_mem_nil, or_false] at he
    rcases he with rfl | rfl | rfl
    · exact ⟨boxed, rfl, hreachable, hboxed⟩
    · exact ⟨_, rfl, .empty "Event", hempty⟩
    · exact ⟨boxed, rfl, hreachable, hboxed⟩
  have hsize : boxes.size < 2 ^ 64 := by decide
  have hnames : boxes.items.map (fun e => e.2.name?) = [some "Item", none, some "Item"] := by
    decide +kernel
  obtain ⟨q', hparse, hstamps, htexts, hnames'⟩ := parse_render_snapshots hsnapshots hsize
  exact ⟨hsnapshots, hsize, q', hparse, hstamps, htexts, hnames'.trans hnames⟩

end Queue
end Lockstep
