/- Blank characters, ranges of code points, and what is cut off the ends of a text.

   1. `isBlank` is the White_Space property; `isAsciiBlank` is the smaller set that separates the
      parts of a tag.
   2. `stripBy` cuts the characters of a class off both ends, `stripEndBy` off the end only; `trim`
      is `stripBy isBlank` on strings. -/
namespace Lockstep.Text

/-- Whether the code point of `c` lies in one of the closed ranges. -/
def inRanges (ranges : List (Nat × Nat)) (c : Char) : Bool :=
  ranges.any fun r => r.1 ≤ c.toNat && c.toNat ≤ r.2

/-- The White_Space property. -/
def blankRanges : List (Nat × Nat) :=
  [(0x9, 0xd), (0x20, 0x20), (0x85, 0x85), (0xa0, 0xa0), (0x1680, 0x1680), (0x2000, 0x200a),
   (0x2028, 0x2029), (0x202f, 0x202f), (0x205f, 0x205f), (0x3000, 0x3000)]

/-- A blank character: space, tab, a line end, or any other white space. -/
def isBlank (c : Char) : Bool := inRanges blankRanges c

/-- Space, tab, line feed, form feed and carriage return; the vertical tab is not among them. -/
def isAsciiBlank (c : Char) : Bool :=
  c = ' ' || c = '\t' || c = '\n' || c = '\x0c' || c = '\r'

/-! ## Cutting the ends -/

/-- `cs` without the characters of `p` at its end. -/
def stripEndBy (p : Char → Bool) (cs : List Char) : List Char :=
  (cs.reverse.dropWhile p).reverse

/-- `cs` without the characters of `p` at either end. -/
def stripBy (p : Char → Bool) (cs : List Char) : List Char :=
  stripEndBy p (cs.dropWhile p)

/-- A text without the blanks around it. -/
def trim (s : String) : String := String.ofList (stripBy isBlank s.toList)

/-- Whether a text holds nothing but blanks. -/
def isBlankText (s : String) : Bool := s.toList.all isBlank

end Lockstep.Text
