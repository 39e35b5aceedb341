import Lockstep.Proofs.Markup.Document

/- What every element that is read looks like.

   1. `Element.Readable` says of an element under so many open ones that there is room for it, that its
      name and its keys are names, and the same of all elements in it.
   2. Opening tags have such names (`IsOpenTag.named`), and content adds only such elements
      (`Fills.readableAll`). So whatever text is parsed, its elements are readable
      (`readableAll_of_parseAll`). -/
namespace Lockstep.Markup
open Text

/-! ## Names -/

theorem IsTagEnd.named {u : List Char} {r : Attributes × Bool} (h : IsTagEnd u r) :
    ∀ pair ∈ r.1, IsName pair.1.toList := by
  induction h with
  | opens => exact nofun
  | closes => exact nofun
  | cons hg ha hv ih =>
    obtain ⟨key, -, -, -, hkey, -, -, -, -, hpair⟩ := ha
    intro other hother
    rcases List.mem_cons.1 hother with rfl | hother
    · rwa [hpair, String.toList_ofList]
    · exact ih other hother

/-- The name and the keys of a tag are names. -/
theorem IsOpenTag.named {u : List Char} {tag : Tag} (h : IsOpenTag u tag) :
    IsName tag.name.toList ∧ ∀ pair ∈ tag.attributes, IsName pair.1.toList := by
  obtain ⟨key, v, hkey, -, hend, -, hname⟩ := h
  exact ⟨by rwa [hname, String.toList_ofList], hend.named⟩

/-! ## Elements -/

mutual

/-- An element that can be read under `depth` open ones. -/
def Element.Readable (depth : Nat) : Element → Prop
  | ⟨name, attributes, _, children, _, _⟩ =>
    depth < maxDepth ∧ IsName name.toList ∧ (∀ pair ∈ attributes, IsName pair.1.toList) ∧
      Element.ReadableAll (depth + 1) children

/-- Elements that can be read one after the other. -/
def Element.ReadableAll (depth : Nat) : List Element → Prop
  | [] => True
  | e :: es => e.Readable depth ∧ Element.ReadableAll depth es

end

namespace Element

mutual

/-- Where fewer are open, there is room as well. -/
theorem Readable.mono {e : Element} {depth depth' : Nat} (h : e.Readable depth) (hd : depth' ≤ depth) :
    e.Readable depth' := by
  obtain ⟨name, attributes, text, children, bodyStart, bodyEnd⟩ := e
  obtain ⟨hroom, hname, hkeys, hchildren⟩ := h
  exact ⟨Nat.lt_of_le_of_lt hd hroom, hname, hkeys, hchildren.mono (Nat.add_le_add_right hd 1)⟩

theorem ReadableAll.mono {es : List Element} {depth depth' : Nat} (h : ReadableAll depth es)
    (hd : depth' ≤ depth) : ReadableAll depth' es := by
  cases es with
  | nil => trivial
  | cons e es => exact ⟨h.1.mono hd, h.2.mono hd⟩

end

theorem ReadableAll.concat {es : List Element} {e : Element} {depth : Nat} (h : ReadableAll depth es)
    (he : e.Readable depth) : ReadableAll depth (es ++ [e]) := by
  induction es with
  | nil => exact ⟨he, trivial⟩
  | cons first es ih => exact ⟨h.1, ih h.2⟩

end Element

/-- What a tag opened is readable, if what is in it is. -/
theorem IsOpenTag.readable_close {u : List Char} {tag : Tag} (h : IsOpenTag u tag) {o : Open}
    (ho : o.tag = tag) {depth : Nat} (hd : depth < maxDepth)
    (hchildren : Element.ReadableAll (depth + 1) o.children) (bodyEnd : Nat) :
    (o.close bodyEnd).Readable depth := by
  subst ho
  exact ⟨hd, h.named.1, h.named.2, hchildren⟩

theorem IsOpenTag.readable_alone {u : List Char} {tag : Tag} (h : IsOpenTag u tag) {depth : Nat}
    (hd : depth < maxDepth) (bodyStart bodyEnd : Nat) :
    ((Open.ofTag tag bodyStart).close bodyEnd).Readable depth :=
  h.readable_close (o := Open.ofTag tag bodyStart) rfl hd trivial bodyEnd

/-- Content adds readable elements only. -/
theorem Fills.readableAll {depth pos : Nat} {u : List Char} {o o' : Open}
    (h : Fills depth pos u o o') (ho : Element.ReadableAll depth o.children) :
    Element.ReadableAll depth o'.children := by
  induction h with
  | done => exact ho
  | comment _ _ _ ih => exact ih ho
  | text _ _ _ _ ih => exact ih ho
  | closed hu _ _ hd _ ih => exact ih (ho.concat (hu.readable_alone hd _ _))
  | element hu _ _ hd hw _ _ ihw ihv =>
    exact ihv (ho.concat (hu.readable_close hw.tag_eq.1 hd (ihw trivial) _))

theorem IsElement.readable {depth pos : Nat} {u : List Char} {e : Element}
    (h : IsElement depth pos u e) (hd : depth < maxDepth) : e.Readable depth := by
  cases h with
  | closed hu _ => exact hu.readable_alone hd _ _
  | around hu _ hw _ => exact hu.readable_close hw.tag_eq.1 hd (hw.readableAll trivial) _

theorem IsDocument.readableAll {pos : Nat} {cs : List Char} {es : List Element}
    (h : IsDocument pos cs es) : Element.ReadableAll 0 es := by
  induction h with
  | done => trivial
  | element _ he _ _ _ ih => exact ⟨he.readable (by decide), ih⟩

/-- Whatever text is parsed, its elements have names that are names, and are not nested too deeply. -/
theorem readableAll_of_parseAll {text : String} {es : List Element} (h : parseAll text = .ok es) :
    Element.ReadableAll 0 es :=
  (isDocument_of_readAll h).readableAll

end Lockstep.Markup
