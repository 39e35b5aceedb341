import Lockstep.Markup.Bytewise
import Lockstep.Queue.Text

/- Queues from bytes, with the slices and the search for items checked.

   1. `find?` gives the offset of a pattern, which is all that the slices behind it are taken by.
   2. `headerAt` cuts the announced number out of the header with three slices.
   3. `itemRound` looks for the next item from an offset on, and goes on at the offset behind the element
      that was read there. An item is placed when it is found. -/
namespace Lockstep.Queue.Bytewise
open Text Markup Markup.Bytewise

/-- The offset of the first occurrence of a pattern. -/
def find? (pattern cs : List Char) : Option Nat :=
  (cutPattern? pattern cs).map fun parts => byteSize parts.1

/-- What a header has to have. -/
def needed {α : Type} : Option α → Checked Error α
  | some a => .ok a
  | none => .error (.error .malformedHeader)

/-- The number of items that the header of a text announces. -/
def headerAt (text : String) : Checked Error Nat := do
  let rest ← needed (dropPattern? ('<' :: queueTag) (text.toList.dropWhile isBlank))
  let stop ← needed (find? ['>'] rest)
  let header ← slice rest 0 stop
  let key := countKey ++ ['=', '"']
  let before ← needed (find? key header)
  let value ← sliceFrom header (before + byteSize key)
  let size ← needed (find? ['"'] value)
  let count ← slice header (before + byteSize key) (before + byteSize key + size)
  needed (Numeral.natural? (2 ^ 64) (stripBy isBlank count))

/-- One more item of a text, or the end of its items. The state is the queue with those before it, their
    number and the offset from which it is looked for. -/
def itemRound (text : String) (s : (Queue × Nat) × Nat) :
    Checked Error (Round ((Queue × Nat) × Nat) (Queue × Nat)) := do
  let ((q, count), pos) := s
  let rest ← sliceFrom text.toList pos
  match find? ('<' :: itemTag) rest with
  | none => return .done (q, count)
  | some before =>
    match Markup.Bytewise.parseAt text (pos + before) with
    | .error (.error _) => return .done (q, count)
    | .error (.badSlice first last) => throw (.badSlice first last)
    | .error (.stalled place) => throw (.stalled place)
    | .ok (e, after) =>
      if e.name.toList = itemTag then
        let stampText := (e.attribute? (String.ofList stampKey)).getD ""
        match Stamp.ofText? stampText with
        | none => throw (.error (.invalidStamp stampText))
        | some stamp =>
          let body ← slice text.toList e.bodyStart e.bodyEnd
          match q.place stamp (.written (String.ofList body)) with
          | .error e => throw (.error e)
          | .ok (_, q) => return .again ((q, count + 1), after)
      else return .again ((q, count), after)

/-- The queue of a text. -/
def parse (text : String) : Checked Error Queue :=
  if isBlankText text then .ok empty
  else do
    let expected ← headerAt text
    let bracket ← needed (find? ['>'] text.toList)
    let (q, count) ← iterate (byteSize text.toList) Prod.snd (itemRound text) ((empty, 0), bracket + 1)
    if count = expected then return q else throw (.error (.corrupted expected count))

end Lockstep.Queue.Bytewise
