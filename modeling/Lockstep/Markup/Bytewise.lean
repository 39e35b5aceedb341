import Lockstep.Markup.Parser
import Lockstep.Text.Boundary

/- The parser over bytes, with its slices and loops checked.

   1. A place is an offset into the bytes of a text, which are looked at one by one. A slice of the text is
      taken from one offset to another; where one of the two is no boundary of the text, or they are the
      wrong way round, that is a trap (`Stop.badSlice`).
   2. Every loop is an `iterate`: rounds that lead from one state to the next. A round that goes on without
      having got further in the text is a trap as well (`Stop.stalled`), so that every loop ends.
   3. The readers are those of `Cursor`, name by name, but none of them steps over a character as a whole.
      `elementAt` reads children by calling itself, one level further down. -/
namespace Lockstep.Markup.Bytewise
open Text

/-- What ends a run before its end: an error of its own, or a trap. -/
inductive Stop (ε : Type) where
  | error (e : ε)
  | badSlice (first last : Nat)
  | stalled (place : Nat)
deriving DecidableEq, Repr

/-- A result, or what kept it from being reached. -/
abbrev Checked (ε α : Type) := Except (Stop ε) α

/-! ## Slices -/

/-- The part of a text between two offsets. -/
def slice {ε : Type} (src : List Char) (first last : Nat) : Checked ε (List Char) :=
  match splitAt? last src with
  | none => .error (.badSlice first last)
  | some (front, _) =>
    match splitAt? first front with
    | none => .error (.badSlice first last)
    | some (_, part) => .ok part

/-- The part of a text from an offset on. -/
def sliceFrom {ε : Type} (src : List Char) (first : Nat) : Checked ε (List Char) :=
  slice src first (byteSize src)

/-! ## Loops -/

/-- What a round of a loop leads to. -/
inductive Round (σ α : Type) where
  | again (s : σ)
  | done (a : α)

/-- Rounds until one is the last. Each of the others gets further, up to the end of a text. -/
def iterate {ε σ α : Type} (size : Nat) (place : σ → Nat) (round : σ → Checked ε (Round σ α))
    (s : σ) : Checked ε α :=
  match round s with
  | .error stop => .error stop
  | .ok (.done a) => .ok a
  | .ok (.again s') =>
    if place s < place s' ∧ place s' ≤ size then iterate size place round s'
    else .error (.stalled (place s))
termination_by size - place s
decreasing_by omega

/-! ## Bytes -/

/-- A space, a tab, a line feed, a form feed or a carriage return. -/
def isBlankByte (b : UInt8) : Bool :=
  b = ' '.toUInt8 || b = '\t'.toUInt8 || b = '\n'.toUInt8 || b = '\x0c'.toUInt8 || b = '\r'.toUInt8

/-- The bytes that end a name. -/
def endsNameByte (b : UInt8) : Bool :=
  isBlankByte b || b = '/'.toUInt8 || b = '>'.toUInt8 || b = '='.toUInt8 || b = '<'.toUInt8

/-- The byte at an offset. -/
def peek (src : List Char) (pos : Nat) : Option UInt8 := (bytesOf src)[pos]?

/-- Whether a character below U+0080 stands at an offset. -/
def standsAt (src : List Char) (c : Char) (pos : Nat) : Bool := peek src pos = some c.toUInt8

/-- Whether a text goes on with a pattern. -/
def startsWith {ε : Type} (src pattern : List Char) (pos : Nat) : Checked ε Bool := do
  let rest ← sliceFrom src pos
  return (dropPattern? pattern rest).isSome

/-- The offset behind all bytes of a class. -/
def skipWhile {ε : Type} (src : List Char) (p : UInt8 → Bool) : Nat → Checked ε Nat :=
  iterate (byteSize src) id fun pos =>
    .ok (if (peek src pos).any p then .again (pos + 1) else .done pos)

def skipBlanks {ε : Type} (src : List Char) : Nat → Checked ε Nat := skipWhile src isBlankByte

/-! ## Entities -/

/-- The entities, and what they are read as. -/
def entities : List (List Char × Char) :=
  [(['&', 'a', 'm', 'p', ';'], '&'), (['&', 'l', 't', ';'], '<'), (['&', 'g', 't', ';'], '>'),
   (['&', 'q', 'u', 'o', 't', ';'], '"'), (['&', 'a', 'p', 'o', 's', ';'], '\'')]

/-- The text up to the next ampersand, and what stands there. The state is what was read, and what is
    left. -/
def entityRound {ε : Type} (s : List Char × List Char) :
    Checked ε (Round (List Char × List Char) (List Char)) := do
  let (out, rest) := s
  match cutPattern? ['&'] rest with
  | none => return .done (out ++ rest)
  | some parts =>
    let before ← slice rest 0 (byteSize parts.1)
    let rest ← sliceFrom rest (byteSize parts.1)
    match entities.find? fun entity => (dropPattern? entity.1 rest).isSome with
    | some (entity, c) =>
      let rest ← sliceFrom rest (byteSize entity)
      return .again (out ++ before ++ [c], rest)
    | none =>
      let rest ← sliceFrom rest 1
      return .again (out ++ before ++ ['&'], rest)

/-- A text with its entities read. -/
def unescape {ε : Type} (text : List Char) : Checked ε (List Char) :=
  iterate (byteSize text) (fun s => byteSize text - byteSize s.2) entityRound ([], text)

/-! ## Tags -/

def nameAt (src : List Char) (pos : Nat) : Checked Fault (String × Nat) := do
  let stop ← skipWhile src (!endsNameByte ·) pos
  if stop = pos then throw (.error ⟨pos, .expectedName⟩)
  else
    let part ← slice src pos stop
    return (String.ofList part, stop)

def expect (src : List Char) (wanted : Char) (pos : Nat) : Checked Fault Nat :=
  if standsAt src wanted pos then .ok (pos + 1) else .error (.error ⟨pos, .expected wanted⟩)

/-- What stands up to the closing quote. -/
def quotedAt (src : List Char) (quote : Char) (pos : Nat) : Checked Fault (String × Nat) := do
  let stop ← skipWhile src (· ≠ quote.toUInt8) pos
  if (peek src stop).isSome then
    let raw ← slice src pos stop
    let text ← unescape raw
    return (String.ofList text, stop + 1)
  else throw (.error ⟨stop, .unterminatedValue⟩)

def valueAt (src : List Char) (pos : Nat) : Checked Fault (String × Nat) :=
  if standsAt src '"' pos then quotedAt src '"' (pos + 1)
  else if standsAt src '\'' pos then quotedAt src '\'' (pos + 1)
  else .error (.error ⟨pos, .expectedQuote⟩)

def attributeAt (src : List Char) (pos : Nat) : Checked Fault ((String × String) × Nat) := do
  let (key, pos) ← nameAt src pos
  let pos ← skipBlanks src pos
  let pos ← expect src '=' pos
  let pos ← skipBlanks src pos
  let (text, pos) ← valueAt src pos
  return ((key, text), pos)

/-- One attribute of a tag, or its end. -/
def tagRound (src : List Char) (s : Attributes × Nat) :
    Checked Fault (Round (Attributes × Nat) ((Attributes × Bool) × Nat)) := do
  let pos ← skipBlanks src s.2
  if ← startsWith src ['/', '>'] pos then return .done ((s.1, true), pos + 2)
  else if standsAt src '>' pos then return .done ((s.1, false), pos + 1)
  else if peek src pos = none then throw (.error ⟨pos, .unterminatedTag⟩)
  else
    let (pair, pos) ← attributeAt src pos
    return .again (s.1 ++ [pair], pos)

def tagEndAt (src : List Char) (pos : Nat) : Checked Fault ((Attributes × Bool) × Nat) :=
  iterate (byteSize src) Prod.snd (tagRound src) ([], pos)

def openTagAt (src : List Char) (pos : Nat) : Checked Fault (Tag × Nat) := do
  let pos ← expect src '<' pos
  let (tagName, pos) ← nameAt src pos
  let ((attributes, closesItself), pos) ← tagEndAt src pos
  return (⟨tagName, attributes, closesItself⟩, pos)

def closeTagAt (src : List Char) (wanted : String) (pos : Nat) : Checked Fault Nat := do
  let (closing, pos) ← nameAt src (pos + 2)
  if closing = wanted then
    let pos ← skipBlanks src pos
    expect src '>' pos
  else throw (.error ⟨pos, .mismatched closing wanted⟩)

/-- The offset behind the first occurrence of what ends a construct. -/
def skipPast (src ending : List Char) (pos : Nat) : Checked Fault Nat := do
  let rest ← sliceFrom src pos
  match cutPattern? ending rest with
  | some parts => return pos + byteSize parts.1 + byteSize ending
  | none => throw (.error ⟨pos, .unterminatedConstruct⟩)

/-- Blanks and one comment or declaration. -/
def miscRound (src : List Char) (pos : Nat) : Checked Fault (Round Nat Nat) := do
  let pos ← skipBlanks src pos
  if ← startsWith src ['<', '!', '-', '-'] pos then
    let pos ← skipPast src ['-', '-', '>'] pos
    return .again pos
  else if ← startsWith src ['<', '?'] pos then
    let pos ← skipPast src ['?', '>'] pos
    return .again pos
  else return .done pos

def skipMisc (src : List Char) : Nat → Checked Fault Nat :=
  iterate (byteSize src) id (miscRound src)

/-! ## Elements -/

/-- One piece of the content of an open element, or its closing tag. -/
def contentRound (src : List Char) (child : Nat → Checked Fault (Element × Nat)) (s : Open × Nat) :
    Checked Fault (Round (Open × Nat) (Element × Nat)) := do
  let (o, pos) := s
  if peek src pos = none then throw (.error ⟨pos, .unclosed o.tag.name⟩)
  else if ← startsWith src ['<', '/'] pos then
    let after ← closeTagAt src o.tag.name pos
    return .done (o.close pos, after)
  else if ← startsWith src ['<', '!', '-', '-'] pos then
    let after ← skipPast src ['-', '-', '>'] pos
    return .again (o, after)
  else if standsAt src '<' pos then
    let (e, after) ← child pos
    return .again (o.addChild e, after)
  else
    let stop ← skipWhile src (· ≠ '<'.toUInt8) pos
    let raw ← slice src pos stop
    let text ← unescape raw
    return .again ({ o with text := o.text ++ String.ofList text }, stop)

/-- The element at an offset, with so many levels left for it and what is in it. -/
def elementAt (src : List Char) : Nat → Nat → Checked Fault (Element × Nat)
  | 0, pos => .error (.error ⟨pos, .tooDeep⟩)
  | levels + 1, pos => do
    let (tag, pos) ← openTagAt src pos
    if tag.closesItself then return ((Open.ofTag tag pos).close pos, pos)
    else iterate (byteSize src) Prod.snd (contentRound src (elementAt src levels)) (Open.ofTag tag pos, pos)

/-! ## Texts -/

/-- The element at or after an offset, and the offset behind it. -/
def parseAt (text : String) (offset : Nat) : Checked Fault (Element × Nat) :=
  let src := text.toList
  let pos := min offset (byteSize src)
  if IsBoundary src pos then do
    let pos ← skipMisc src pos
    if standsAt src '<' pos then elementAt src maxDepth pos
    else throw (.error ⟨pos, .expectedElement⟩)
  else .error (.error ⟨offset, .notABoundary⟩)

/-- One more element, or the end of the text. -/
def documentRound (src : List Char) (s : List Element × Nat) :
    Checked Fault (Round (List Element × Nat) (List Element)) := do
  let pos ← skipMisc src s.2
  if peek src pos = none then return .done s.1
  else if standsAt src '<' pos then
    let (e, pos) ← elementAt src maxDepth pos
    return .again (s.1 ++ [e], pos)
  else throw (.error ⟨pos, .textOutside⟩)

/-- All top-level elements of a text. -/
def parseAll (text : String) : Checked Fault (List Element) :=
  iterate (byteSize text.toList) Prod.snd (documentRound text.toList) ([], 0)

end Lockstep.Markup.Bytewise
