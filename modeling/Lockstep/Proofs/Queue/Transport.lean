import Lockstep.Proofs.Markup.Document
import Lockstep.Proofs.Markup.Nesting
import Lockstep.Proofs.Queue.Canonical
import Lockstep.Proofs.Registry.Outline

/- Which of the payloads that can be loaded a queue can carry.

   1. A payload is loaded from a text of its own, and carried between the tags of an item. A text that is
      parsed on its own is content there too, unless a declaration begins in it, or its elements are
      nested as deep as they may be and leave none for the item (`isContent_of_parseAll`).
   2. In the latter case the parser gives up on the item, and with it the search for items ends
      (`scan_of_deep`).
   3. So a queue of such payloads is read back if each is `Shallow`; otherwise too few items are found,
      and the reading fails (`parse_render_loadable`). -/
namespace Lockstep

namespace Payload
open Markup

/-- A text that is loaded without an error. -/
def Loadable (p : Payload) : Prop := ∃ text r, p = written text ∧ p.toRegistry = .ok r

/-- A text whose elements leave a level for one more around them. -/
def Shallow (p : Payload) : Prop :=
  ∃ es, parseAll p.text = .ok es ∧ Element.heightAll es < maxDepth

/-- What is loaded has been parsed. -/
theorem Loadable.exists_parseAll {p : Payload} (h : p.Loadable) :
    ∃ es, parseAll p.text = .ok es := by
  obtain ⟨text, r, rfl, hr⟩ := h
  cases hparse : parseAll text with
  | error f => simp only [toRegistry, Registry.addAllMarkup, hparse, reduceCtorEq] at hr
  | ok es => exact ⟨es, hparse⟩

theorem maxDepth_le_of_not_shallow {p : Payload} {es : List Element} (hes : parseAll p.text = .ok es)
    (h : ¬ p.Shallow) : maxDepth ≤ Element.heightAll es :=
  Nat.not_lt.1 fun hlt => h ⟨es, hes, hlt⟩

end Payload

namespace Queue
open Text Markup

/-- At any place, a text that was parsed is content but for its nesting, and that is as deep as it was. -/
theorem exists_fills_of_parseAll {text : String} {es : List Element} (hes : parseAll text = .ok es)
    (hd : ¬ Declares 0 text.toList) (pos : Nat) (o : Open) :
    ∃ o' es', Fills 0 pos text.toList o o' ∧ o'.children = o.children ++ es' ∧
      Element.heightAll es' = Element.heightAll es := by
  obtain ⟨o', hfills, hadded⟩ := (isDocument_of_readAll hes).exists_fills hd o
  exact hfills.exists_at_height hadded pos o

/-- A text that was parsed is content of an item, if its elements are not nested too deeply for that. -/
theorem isContent_of_parseAll {text : String} {es : List Element} (hes : parseAll text = .ok es)
    (hd : ¬ Declares 0 text.toList) (hs : Element.heightAll es < maxDepth) :
    IsContent 1 text.toList := by
  intro pos o
  obtain ⟨o', es', hfills, hadded, hheight⟩ := exists_fills_of_parseAll hes hd pos o
  exact ⟨o', hfills.deepen hadded (by omega)⟩

/-- Where its elements leave no level for the item, what was parsed is refused in one. -/
theorem run_of_deep {text : String} {es : List Element} (hes : parseAll text = .ok es)
    (hd : ¬ Declares 0 text.toList) (hdeep : maxDepth ≤ Element.heightAll es) (pos : Nat) (o : Open)
    {rest : List Char} (hr : StopsBy (· ≠ '<') rest) :
    ∃ offset, run [] o ⟨pos, text.toList ++ rest⟩ = .error ⟨offset, .tooDeep⟩ := by
  obtain ⟨o', es', hfills, hadded, hheight⟩ := exists_fills_of_parseAll hes hd pos o
  exact hfills.run_tooDeep hadded (by decide) (by rw [List.length_nil]; omega) hr

/-- An item whose payload is nested too deeply for it cannot be read, and ends the search. -/
theorem scan_of_deep {item : Event} {es : List Element} (hes : parseAll item.2.text = .ok es)
    (hd : ¬ Declares 0 item.2.text.toList) (hdeep : maxDepth ≤ Element.heightAll es) (pos : Nat)
    (rest : List Char) : scan ⟨pos, itemChars item ++ rest⟩ = ([], none) := by
  have hopen := isOpenTag_tagChars isName_itemTag isName_stampKey (of_mem_stampChars (s := item.1))
  have hread := hopen.takes pos (item.2.text.toList ++ (closeChars itemTag ++ rest))
  have hbracket := stopsBy_closeTag (isCloseTag_closeChars isName_itemTag) rest
  obtain ⟨offset, hrun⟩ := run_of_deep hes hd hdeep
    (pos + byteSize (tagChars itemTag stampKey item.1.chars)) (Open.ofTag _ _) hbracket
  rw [itemChars_append]
  refine scan_of_readElement (find?_tagChars pos item.1.chars _) (f := ⟨offset, .tooDeep⟩) ?_
  simp only [readElement, hread, Bool.false_eq_true, if_false]
  exact hrun

/-- Items in front of one that is nested too deeply are found, and none behind them. -/
theorem parse_render_deep {q : Queue} (hs : q.size < 2 ^ 64) {front back : List Event} {item : Event}
    (hq : q.items = front ++ item :: back)
    (hfront : ∀ i ∈ front, IsContent 1 i.2.text.toList)
    (hdeep : ∀ pos rest, scan ⟨pos, itemChars item ++ rest⟩ = ([], none)) :
    parse q.render = .error (.corrupted q.size front.length) := by
  have hrising : Rising front := (List.pairwise_append.1 (hq ▸ q.rising)).1
  have hscan : ∀ pos, scan ⟨pos, q.items.flatMap itemChars ++ closeChars queueTag⟩ =
      (front.map (fun i => (i.1, i.2.text)), none) := by
    intro pos
    rw [hq, List.flatMap_append, List.flatMap_cons, List.append_assoc, List.append_assoc]
    obtain ⟨pos', hfound⟩ := scan_append hfront pos
      (itemChars item ++ (back.flatMap itemChars ++ closeChars queueTag))
    rw [hfound, hdeep, List.append_nil]
  have hfewer : front.length ≠ q.size := by
    rw [size, hq, List.length_append, List.length_cons]
    omega
  rw [render, chars_eq_tagChars, parse_tagChars hs hrising hscan, if_neg hfewer]

/-- A queue of payloads that can be loaded, and in which no declarations begin, is read back if the
    elements of each leave a level of nesting for its item. If those of some do not, the reading fails
    at the first of these, and reports how many items there are in front of it. -/
theorem parse_render_loadable {q : Queue} (hs : q.size < 2 ^ 64)
    (hq : ∀ item ∈ q.items, item.2.Loadable)
    (hd : ∀ item ∈ q.items, ¬ Declares 0 item.2.text.toList) :
    ((∀ item ∈ q.items, item.2.Shallow) → parse q.render = .ok q) ∧
      ∀ front item back, q.items = front ++ item :: back → (∀ i ∈ front, i.2.Shallow) →
        ¬ item.2.Shallow → parse q.render = .error (.corrupted q.size front.length) := by
  have hcontent : ∀ item ∈ q.items, item.2.Shallow → IsContent 1 item.2.text.toList := by
    rintro item hitem ⟨es, hes, hshallow⟩
    exact isContent_of_parseAll hes (hd item hitem) hshallow
  refine ⟨fun hshallow => ?_, fun front item back hitems hfront hdeep => ?_⟩
  · have hwritten : q.IsWritten := fun item hitem => by
      obtain ⟨text, r, hp, -⟩ := hq item hitem
      exact ⟨text, hp⟩
    have hread := parse_render (fun item hitem => hcontent item hitem (hshallow item hitem)) hs
    rwa [written_eq_self hwritten] at hread
  · have hmem : item ∈ q.items := hitems ▸ List.mem_append_right front List.mem_cons_self
    obtain ⟨es, hes⟩ := (hq item hmem).exists_parseAll
    refine parse_render_deep hs hitems (fun i hi => ?_)
      (scan_of_deep hes (hd item hmem) (Payload.maxDepth_le_of_not_shallow hes hdeep))
    exact hcontent i (hitems ▸ List.mem_append_left _ hi) (hfront i hi)

/-! ## Payloads that are loaded and not carried -/

section
variable {levels : Nat}
open Registry

theorem loadable_towering (h : levels < maxDepth) :
    (Payload.written (towering levels).renderRoots).Loadable := by
  obtain ⟨es, ps, -, hload⟩ := exists_addAllMarkup_renderRoots (tidy_towering levels)
    (keyed_towering levels) (Nat.le_trans (Nat.le_of_eq (height_towering levels)) h) defaultName
  exact ⟨_, _, rfl, by rw [Payload.toRegistry, hload]⟩

theorem not_mem_chars_towering (levels : Nat) :
    '?' ∉ (towering levels).renderRoots.toList := by
  rw [renderRoots, String.toList_ofList, forest_towering, Forest.chars, Forest.chars,
    List.append_nil]
  induction levels with
  | zero => decide
  | succ levels ih =>
    have hopening : '?' ∉ openingChars "a" .container [] := by decide
    have hclosing : '?' ∉ closingChars "a" := by decide
    show '?' ∉ openingChars "a" .container [] ++ (_ ++ []) ++ closingChars "a"
    rw [List.append_nil, List.mem_append, List.mem_append]
    exact fun h => h.elim (fun h => h.elim hopening ih) hclosing

theorem not_declares_of_not_mem {cs : List Char} (h : '?' ∉ cs) (pos : Nat) : ¬ Declares pos cs := by
  rintro ⟨u, w, es, rfl, -⟩
  exact h (List.mem_append_right _ (List.mem_append_left _ (by decide)))

theorem exists_parseAll_towering (h : levels < maxDepth) :
    ∃ es, parseAll (towering levels).renderRoots = .ok es ∧ Element.heightAll es = levels + 1 := by
  obtain ⟨es, hparse, hsaid⟩ := exists_parseAll_renderRoots (tidy_towering levels)
    (keyed_towering levels) (Nat.le_trans (Nat.le_of_eq (height_towering levels)) h)
  exact ⟨es, hparse, by rw [hsaid.height, height_towering]⟩

end

/-- A payload of as many levels as may be nested. -/
def deepest : Queue :=
  ⟨[(⟨5, 0⟩, .written (Registry.towering 255).renderRoots)], List.pairwise_singleton ..⟩

/-- A payload that starts with a declaration. -/
def declared : Queue :=
  ⟨[(⟨5, 0⟩, .written "<?x?><a type=\"int\">1</a>")], List.pairwise_singleton ..⟩

theorem loadable_of_isSome {text : String}
    (h : (Payload.written text).toRegistry.toOption.isSome = true) :
    (Payload.written text).Loadable := by
  cases hload : (Payload.written text).toRegistry with
  | error e =>
    rw [hload] at h
    cases h
  | ok r => exact ⟨text, r, rfl, hload⟩

/-- Both payloads can be loaded, and neither comes through. -/
theorem transport_fails :
    ((∀ item ∈ deepest.items, item.2.Loadable) ∧
      parse deepest.render = .error (.corrupted 1 0)) ∧
    (∀ item ∈ declared.items, item.2.Loadable) ∧ ∃ e, parse declared.render = .error e := by
  refine ⟨⟨?_, ?_⟩, ?_, ?_⟩
  · exact List.forall_mem_singleton.2 (loadable_towering (Nat.lt_add_one 255))
  · obtain ⟨es, hes, hheight⟩ := exists_parseAll_towering (Nat.lt_add_one 255)
    have hsize : deepest.size < 2 ^ 64 := by decide
    exact parse_render_deep hsize (List.nil_append deepest.items).symm (List.forall_mem_nil _)
      (scan_of_deep hes (not_declares_of_not_mem (not_mem_chars_towering 255) 0)
        (Nat.le_of_eq hheight.symm))
  · exact List.forall_mem_singleton.2 (loadable_of_isSome (by decide +kernel))
  · exact Registry.exists_error_of_isNone (by decide +kernel)

/-! ## Payloads that are carried -/

theorem shallow_of_heightAll {text : String} {n : Nat}
    (h : (parseAll text).toOption.map Element.heightAll = some n) (hn : n < maxDepth) :
    (Payload.written text).Shallow := by
  obtain ⟨es, hparse, hheight⟩ := exists_ok_of_toOption (parseAll text) h
  exact ⟨es, hparse, hheight ▸ hn⟩

/-- Elements with the names of a queue's tags, blanks between elements and no element at all, and a comment
    that ends where it begins. -/
def varied : Queue :=
  ⟨[(⟨5, 0⟩, .written "<!-- a --> <Item type=\"container\"><Queue num='1'>2</Queue></Item>\n<b/>\n"),
    (⟨5, 1⟩, .written "\n"),
    (⟨7, 0⟩, .written "<!--><a type=\"string\"> &lt;/Item&gt; </a>")], by
      rw [Rising]
      decide +kernel⟩

theorem parse_render_varied :
    parse varied.render = .ok varied ∧ parse deepest.render = .error (.corrupted 1 0) := by
  constructor
  · have hloadable : ∀ item ∈ varied.items, item.2.Loadable := by
      simp only [varied, List.forall_mem_cons, List.not_mem_nil, false_implies, implies_true, and_true]
      exact ⟨loadable_of_isSome (by decide +kernel), loadable_of_isSome (by decide +kernel),
        loadable_of_isSome (by decide +kernel)⟩
    have hnone : ∀ item ∈ varied.items, '?' ∉ item.2.text.toList := by decide +kernel
    have hshallow : ∀ item ∈ varied.items, item.2.Shallow := by
      simp only [varied, List.forall_mem_cons, List.not_mem_nil, false_implies, implies_true, and_true]
      exact ⟨shallow_of_heightAll (n := 2) (by decide +kernel) (by decide),
        shallow_of_heightAll (n := 0) (by decide +kernel) (by decide),
        shallow_of_heightAll (n := 1) (by decide +kernel) (by decide)⟩
    exact (parse_render_loadable (by decide) hloadable
      fun item hitem => not_declares_of_not_mem (hnone item hitem) 0).1 hshallow
  · obtain ⟨es, hes, hheight⟩ := exists_parseAll_towering (Nat.lt_add_one 255)
    have hloadable : ∀ item ∈ deepest.items, item.2.Loadable :=
      List.forall_mem_singleton.2 (loadable_towering (Nat.lt_add_one 255))
    have hnone : ∀ item ∈ deepest.items, ¬ Declares 0 item.2.text.toList :=
      List.forall_mem_singleton.2 (not_declares_of_not_mem (not_mem_chars_towering 255) 0)
    refine (parse_render_loadable (by decide) hloadable hnone).2 [] _ [] rfl (List.forall_mem_nil _) ?_
    rintro ⟨es', hes', hlt⟩
    cases hes.symm.trans hes'
    exact Nat.lt_irrefl _ (hheight ▸ hlt)

end Queue
end Lockstep
