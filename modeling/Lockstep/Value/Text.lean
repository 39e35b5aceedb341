import Lockstep.Numeral.Shortest
import Lockstep.Text.Blank
import Lockstep.Text.Cut
import Lockstep.Value.Basic

/- Values as text.

   1. `Value.render` writes a value with a separator between the elements of a list. The elements
      of a list of texts are escaped: a backslash stands before each separator and backslash. The
      list of one empty text is a lone backslash, which no other list is written as; the empty list
      is the empty text.
   2. `Value.ofText` reads a body of a known kind. It reads every body: a numeral that does not
      parse counts as zero.
   3. `Kind.infer` guesses the kind of a body that has none: an integer, a float, a container when
      it opens with an angle bracket, a list by the first of its elements, or else a text. -/
namespace Lockstep
open Text

/-- What separates elements where nothing else is asked for. -/
def defaultSeparator : Char := ','

/-- The body of the list of one empty text. -/
def loneEmpty : List Char := ['\\']

/-! ## Writing -/

/-- An element of a list of texts, with its separators and backslashes escaped. -/
def escapeElement (sep : Char) (cs : List Char) : List Char :=
  cs.flatMap fun c => if c = '\\' ∨ c = sep then ['\\', c] else [c]

/-- The body of a datum. -/
def Datum.chars (sep : Char) : Datum → List Char
  | empty => []
  | int n => Numeral.int32Chars n
  | float x => x.chars
  | text s => s.toList
  | ints ns => [sep].intercalate (ns.map Numeral.int32Chars)
  | floats xs => [sep].intercalate (xs.map Binary32.chars)
  | texts ss =>
    if ss = [""] then loneEmpty
    else [sep].intercalate (ss.map fun s => escapeElement sep s.toList)

/-- The body of a value. -/
def Value.chars (sep : Char) : Value → List Char
  | datum d => d.chars sep
  | container names => [sep].intercalate (names.map String.toList)

def Value.render (v : Value) (sep : Char) : String := String.ofList (v.chars sep)

/-! ## Reading -/

/-- The elements between separators; a body of blanks has none. -/
def plainElements (sep : Char) (cs : List Char) : List (List Char) :=
  if cs.all isBlank then [] else cs.splitOn sep

/-- `c` in front of the first element. -/
def consFirst (c : Char) : List (List Char) → List (List Char)
  | [] => [[c]]
  | e :: es => (c :: e) :: es

/-- The elements of an escaped list: a backslash takes the next character as it is, and stands for
    itself at the end. -/
def unescapeElements (sep : Char) : List Char → List (List Char)
  | [] => [[]]
  | '\\' :: c :: cs => consFirst c (unescapeElements sep cs)
  | c :: cs =>
    if c = sep ∧ c ≠ '\\' then [] :: unescapeElements sep cs
    else consFirst c (unescapeElements sep cs)

/-- The elements of the body of a list of texts. -/
def textElements (sep : Char) (cs : List Char) : List (List Char) :=
  if cs = [] then []
  else if cs = loneEmpty then [[]]
  else unescapeElements sep cs

/-- An integer, blanks around it aside; zero when it is none. -/
def intOrZero (cs : List Char) : Int32 := (Numeral.int32? (stripBy isBlank cs)).getD 0

/-- A single precision number, blanks around it aside; zero when it is none. -/
def floatOrZero (cs : List Char) : Binary32 := (Binary32.ofChars? (stripBy isBlank cs)).getD .zero

/-- The value of a body of a known kind. -/
def Value.ofChars (kind : Kind) (sep : Char) (cs : List Char) : Value :=
  match kind with
  | .empty => datum .empty
  | .int => datum (.int (intOrZero cs))
  | .float => datum (.float (floatOrZero cs))
  | .text => datum (.text (String.ofList cs))
  | .ints => datum (.ints ((plainElements sep cs).map intOrZero))
  | .floats => datum (.floats ((plainElements sep cs).map floatOrZero))
  | .texts => datum (.texts ((textElements sep cs).map String.ofList))
  | .container =>
    container ((((plainElements sep cs).map (stripBy isBlank)).filter (· ≠ [])).map String.ofList)

/-- The value of a body of a known kind. -/
def Value.ofText (kind : Kind) (text : String) (sep : Char) : Value :=
  ofChars kind sep text.toList

/-- The value of a body in markup, where the blanks around it count for some kinds only. -/
def Value.ofBody (kind : Kind) (text : String) (sep : Char) : Value :=
  ofText kind (if kind.keepsBlanks then text else trim text) sep

@[simp] theorem Value.kind_ofChars (kind : Kind) (sep : Char) (cs : List Char) :
    (ofChars kind sep cs).kind = kind := by
  cases kind <;> rfl

@[simp] theorem Value.kind_ofBody (kind : Kind) (text : String) (sep : Char) :
    (ofBody kind text sep).kind = kind := by
  simp [ofBody, ofText]

/-! ## Kinds from text -/

/-- The kind that a marker names, in any case and with blanks around it. -/
def Kind.ofMarker? (marker : String) : Option Kind :=
  let word := (trim marker).toList.map Char.toLower
  all.find? fun k => k.marker.toList = word

/-- An integer numeral. -/
def isInt (cs : List Char) : Bool := (Numeral.int32? cs).isSome

/-- A decimal numeral with a digit in it; the words for infinity and no number are texts. -/
def isFloat (cs : List Char) : Bool := cs.any Char.isDigit && (Decimal.ofChars? cs).isSome

/-- The kind of a body that has no marker. -/
def Kind.infer (text : String) : Kind :=
  let cs := stripBy isBlank text.toList
  if isInt cs then .int
  else if isFloat cs then .float
  else if cs.head? = some '<' then .container
  else match cutFirst? defaultSeparator cs with
    | some (first, _) =>
      let first := stripBy isBlank first
      if isInt first then .ints else if isFloat first then .floats else .text
    | none => .text

end Lockstep
