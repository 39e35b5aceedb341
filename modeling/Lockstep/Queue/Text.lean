import Lockstep.Queue.Basic

/- Queues as text.

   1. `render` writes a `Queue` element that announces the number of its items, and an `Item` element
      for each event, with its stamp as an attribute and the payload's text as its body, unchanged.
   2. `scan` finds the items: it looks for the next `<Item`, reads an element there and goes on after
      it, up to the end or to an element that cannot be read. `parse` places them in a new queue; a
      stamp that is taken moves to the next free one. The number found has to be the number
      announced. A blank text is the empty queue. -/
namespace Lockstep.Queue
open Text Markup

/-- The element of a queue. -/
def queueTag : List Char := ['Q', 'u', 'e', 'u', 'e']

/-- The element of an event. -/
def itemTag : List Char := ['I', 't', 'e', 'm']

/-- The attribute of a queue with the number of its items. -/
def countKey : List Char := ['n', 'u', 'm']

/-- The attribute of an item with its stamp. -/
def stampKey : List Char := "timeStamp".toList

/-! ## Writing -/

/-- An opening tag with one attribute. -/
def tagChars (tag key text : List Char) : List Char :=
  '<' :: tag ++ ' ' :: key ++ ['=', '"'] ++ text ++ ['"', '>']

/-- A closing tag. -/
def closeChars (tag : List Char) : List Char := '<' :: '/' :: tag ++ ['>']

/-- An item whose body is a payload's text. -/
def itemChars (item : Event) : List Char :=
  tagChars itemTag stampKey item.1.chars ++ item.2.text.toList ++ closeChars itemTag

/-- The text of a queue. -/
def chars (q : Queue) : List Char :=
  tagChars queueTag countKey (Numeral.naturalChars q.size) ++ q.items.flatMap itemChars ++
    closeChars queueTag

def render (q : Queue) : String := String.ofList q.chars

/-! ## Reading -/

/-- The number of items that the header of a text announces. -/
def header? (text : String) : Option Nat :=
  match dropPattern? ('<' :: queueTag) (text.toList.dropWhile isBlank) with
  | none => none
  | some rest =>
    match cutFirst? '>' rest with
    | none => none
    | some (header, _) =>
      match cutPattern? (countKey ++ ['=', '"']) header with
      | none => none
      | some (_, value) =>
        match cutFirst? '"' value with
        | none => none
        | some (count, _) => Numeral.natural? (2 ^ 64) (stripBy isBlank count)

/-- The items from a place on, with their stamps and bodies in the order of the text, and what is
    wrong with the item after them, if that is why they end. -/
def scan (c : Cursor) : List (Stamp × String) × Option Error :=
  match _hf : c.find? ('<' :: itemTag) with
  | none => ([], none)
  | some here =>
    match _he : readElement here with
    | .error _ => ([], none)
    | .ok (e, after) =>
      if e.name.toList = itemTag then
        let stampText := (e.attribute? (String.ofList stampKey)).getD ""
        match Stamp.ofText? stampText with
        | none => ([], some (.invalidStamp stampText))
        | some s =>
          let (items, problem) := scan after
          ((s, String.ofList (here.slice e.bodyStart e.bodyEnd)) :: items, problem)
      else scan after
termination_by c.rest.length
decreasing_by
  all_goals exact Nat.lt_of_lt_of_le (length_readElement_lt _he) (Cursor.length_find?_le _hf)

/-- The queue of a text. -/
def parse (text : String) : Except Error Queue :=
  if isBlankText text then .ok empty
  else
    match header? text, (Cursor.start text).past? ['>'] with
    | some expected, some c =>
      let (items, problem) := scan c
      match empty.placeAll (items.map fun item => (item.1, .written item.2)) with
      | .error e => .error e
      | .ok q =>
        match problem with
        | some e => .error e
        | none =>
          if items.length = expected then .ok q else .error (.corrupted expected items.length)
    | _, _ => .error .malformedHeader

/-- The queue with the events of a text. -/
def mergeText (q : Queue) (text : String) : Except Error Queue :=
  match parse text with
  | .error e => .error e
  | .ok other => q.merge other

end Lockstep.Queue
