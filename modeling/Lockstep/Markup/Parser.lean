import Lockstep.Markup.Tag

/- Elements from text.

   1. `run` reads the content of the innermost open element and closes elements as their closing
      tags come, with the open elements around it on a stack. Every round leaves less text, so it
      ends; the height of the stack is the depth of nesting, which has a limit.
   2. `readElement` reads one element. `parseAll` reads all elements of a text, `parseAt?` the one
      at or after an offset, `parseFirst` the one at the front. -/
namespace Lockstep.Markup
open Text

/-- An element whose closing tag has not come yet: its opening tag, where its body starts, and its
    content so far. -/
structure Open where
  tag : Tag
  bodyStart : Nat
  text : String
  children : List Element

namespace Open

/-- An element of which only the opening tag was read. -/
def ofTag (tag : Tag) (bodyStart : Nat) : Open := ⟨tag, bodyStart, "", []⟩

/-- The element, its body ending at an offset. -/
def close (o : Open) (bodyEnd : Nat) : Element :=
  ⟨o.tag.name, o.tag.attributes, o.text, o.children, o.bodyStart, bodyEnd⟩

/-- The open element with one more child. -/
def addChild (o : Open) (e : Element) : Open := { o with children := o.children ++ [e] }

/-- The open element with more character data. -/
def addText (o : Open) (cs : List Char) : Open :=
  { o with text := o.text ++ String.ofList (unescape cs) }

end Open

/-- What comes next in the content of an element. -/
inductive Upcoming where
  | nothing | closing | comment | opening | text
deriving DecidableEq, Repr

/-- What the first characters of a text announce. -/
def upcoming : List Char → Upcoming
  | [] => .nothing
  | '<' :: '/' :: _ => .closing
  | '<' :: '!' :: '-' :: '-' :: _ => .comment
  | '<' :: _ => .opening
  | _ => .text

theorem length_text_lt {c : Cursor} (h : upcoming c.rest = .text) :
    (c.skipWhile (· ≠ '<')).rest.length < c.rest.length := by
  obtain ⟨pos, rest⟩ := c
  unfold upcoming at h
  split at h <;> try cases h
  rename_i hnil _ _ hopen
  cases rest with
  | nil => exact absurd rfl hnil
  | cons x xs =>
    have hx : x ≠ '<' := fun hx => hopen xs (by rw [hx])
    have := (List.dropWhile_sublist (l := xs) (· ≠ '<')).length_le
    simp only [Cursor.skipWhile, ne_eq, hx, not_false_eq_true, decide_true, List.dropWhile_cons,
      if_true, List.length_cons]
    exact Nat.lt_succ_of_le this

/-- The element at the bottom of the stack, read from within the innermost open element `o`. -/
def run (outer : List Open) (o : Open) (c : Cursor) : Except Fault (Element × Cursor) :=
  match _hu : upcoming c.rest with
  | .nothing => .error (c.fault (.unclosed o.tag.name))
  | .closing =>
    match _hc : readCloseTag o.tag.name c with
    | .error f => .error f
    | .ok after =>
      match outer with
      | [] => .ok (o.close c.pos, after)
      | parent :: outer => run outer (parent.addChild (o.close c.pos)) after
  | .comment =>
    match _hc : readPast "-->" c with
    | .error f => .error f
    | .ok after => run outer o after
  | .opening =>
    if maxDepth ≤ outer.length + 1 then .error (c.fault .tooDeep)
    else
      match _hc : readOpenTag c with
      | .error f => .error f
      | .ok (tag, after) =>
        if tag.closesItself then
          run outer (o.addChild ((Open.ofTag tag after.pos).close after.pos)) after
        else run (o :: outer) (Open.ofTag tag after.pos) after
  | .text => run outer (o.addText (c.rest.takeWhile (· ≠ '<'))) (c.skipWhile (· ≠ '<'))
termination_by c.rest.length
decreasing_by
  · exact length_readCloseTag_lt _hc
  · exact length_readPast_lt (by decide) _hc
  · exact length_readOpenTag_lt _hc
  · exact length_readOpenTag_lt _hc
  · exact length_text_lt _hu

/-- The element whose opening tag stands here. -/
def readElement (c : Cursor) : Except Fault (Element × Cursor) :=
  match readOpenTag c with
  | .error f => .error f
  | .ok (tag, after) =>
    if tag.closesItself then .ok ((Open.ofTag tag after.pos).close after.pos, after)
    else run [] (Open.ofTag tag after.pos) after

/-! ## What is left is shorter -/

theorem length_run_lt {outer : List Open} {o : Open} {c c' : Cursor} {e : Element}
    (h : run outer o c = .ok (e, c')) : c'.rest.length < c.rest.length := by
  fun_induction run outer o c with
  | case1 => cases h
  | case2 => cases h
  | case3 _ _ _ _ hc =>
    cases h
    exact length_readCloseTag_lt hc
  | case4 _ _ _ _ hc _ _ ih => exact Nat.lt_trans (ih h) (length_readCloseTag_lt hc)
  | case5 => cases h
  | case6 _ _ _ _ _ hc ih => exact Nat.lt_trans (ih h) (length_readPast_lt (by decide) hc)
  | case7 => cases h
  | case8 => cases h
  | case9 _ _ _ _ _ _ _ hc _ ih => exact Nat.lt_trans (ih h) (length_readOpenTag_lt hc)
  | case10 _ _ _ _ _ _ _ hc _ ih => exact Nat.lt_trans (ih h) (length_readOpenTag_lt hc)
  | case11 _ _ _ hu ih => exact Nat.lt_trans (ih h) (length_text_lt hu)

theorem length_readElement_lt {c c' : Cursor} {e : Element}
    (h : readElement c = .ok (e, c')) : c'.rest.length < c.rest.length := by
  unfold readElement at h
  split at h
  · cases h
  · rename_i ho
    split at h
    · cases h
      exact length_readOpenTag_lt ho
    · exact Nat.lt_trans (length_run_lt h) (length_readOpenTag_lt ho)

theorem length_skipMisc_le {c c' : Cursor} (h : skipMisc c = .ok c') :
    c'.rest.length ≤ c.rest.length := by
  fun_induction skipMisc c with
  | case1 => cases h
  | case2 c _ _ hb _ hp ih =>
    have := length_readPast_lt (by decide) hp
    have := length_skipBlanks_le c
    have := ih h
    rw [hb] at *
    omega
  | case3 => cases h
  | case4 c _ _ hb _ hp ih =>
    have := length_readPast_lt (by decide) hp
    have := length_skipBlanks_le c
    have := ih h
    rw [hb] at *
    omega
  | case5 c =>
    cases h
    exact length_skipBlanks_le c

/-! ## Texts -/

/-- All elements from here to the end of the text. -/
def readAll (c : Cursor) : Except Fault (List Element) :=
  match _hm : skipMisc c with
  | .error f => .error f
  | .ok here =>
    match here.rest with
    | [] => .ok []
    | '<' :: _ =>
      match _he : readElement here with
      | .error f => .error f
      | .ok (e, after) =>
        match readAll after with
        | .error f => .error f
        | .ok es => .ok (e :: es)
    | _ => .error (here.fault .textOutside)
termination_by c.rest.length
decreasing_by exact Nat.lt_of_lt_of_le (length_readElement_lt _he) (length_skipMisc_le _hm)

/-- All top-level elements of a text. -/
def parseAll (text : String) : Except Fault (List Element) := readAll (.start text)

/-- The element at or after a cursor, and the place after it. -/
def readNext (c : Cursor) : Except Fault (Element × Cursor) :=
  match skipMisc c with
  | .error f => .error f
  | .ok here =>
    match here.rest with
    | '<' :: _ => readElement here
    | _ => .error (here.fault .expectedElement)

/-- The element at or after a byte offset, and the place after it. An offset past the end counts as
    the end. -/
def parseAt (text : String) (offset : Nat) : Except Fault (Element × Cursor) :=
  match (Cursor.start text).forward? offset with
  | some c => readNext c
  | none => .error ⟨offset, .notABoundary⟩

/-- The first element of a text; what follows it does not matter. -/
def parseFirst (text : String) : Except Fault Element :=
  (readNext (.start text)).map Prod.fst

end Lockstep.Markup
