import Lockstep.Markup.Element
import Lockstep.Text.Cut

/- A place in a text: how many bytes lie before it, and what follows.

   Every step over characters adds their bytes to the offset, so that the offset of a cursor that
   started at the front of a text is the size of what was stepped over. -/
namespace Lockstep.Markup
open Text

/-- A place in a text. -/
structure Cursor where
  pos : Nat
  rest : List Char
deriving DecidableEq, Repr

namespace Cursor

/-- The front of a text. -/
def start (text : String) : Cursor := ⟨0, text.toList⟩

/-- The place after all characters of `p` at the front. -/
def skipWhile (p : Char → Bool) (c : Cursor) : Cursor :=
  ⟨c.pos + byteSize (c.rest.takeWhile p), c.rest.dropWhile p⟩

/-- The place after the blanks at the front. -/
def skipBlanks (c : Cursor) : Cursor := c.skipWhile isAsciiBlank

/-- The place before the first occurrence of a pattern. -/
def find? (pattern : List Char) (c : Cursor) : Option Cursor :=
  (cutPattern? pattern c.rest).map fun parts =>
    ⟨c.pos + byteSize parts.1, pattern ++ parts.2⟩

/-- The place after the first occurrence of a pattern. -/
def past? (pattern : List Char) (c : Cursor) : Option Cursor :=
  (cutPattern? pattern c.rest).map fun parts =>
    ⟨c.pos + byteSize parts.1 + byteSize pattern, parts.2⟩

/-- The place `n` bytes further on, or the end of a shorter text; nothing within a character. -/
def forward? : Nat → Cursor → Option Cursor
  | n, ⟨pos, rest⟩ => go n pos rest
where
  go : Nat → Nat → List Char → Option Cursor
    | _, pos, [] => some ⟨pos, []⟩
    | n, pos, c :: cs =>
      if n = 0 then some ⟨pos, c :: cs⟩
      else if n < c.utf8Size then none
      else go (n - c.utf8Size) (pos + c.utf8Size) cs

/-- The text between two offsets that do not lie before this place. -/
def slice (c : Cursor) (first last : Nat) : List Char :=
  takeBytes (last - first) (dropBytes (first - c.pos) c.rest)

/-- A fault at this place. -/
def fault (c : Cursor) (cause : Cause) : Fault := ⟨c.pos, cause⟩

/-! ## Steps get nearer to the end -/

theorem length_skipWhile_le (p : Char → Bool) (c : Cursor) :
    (c.skipWhile p).rest.length ≤ c.rest.length :=
  (List.dropWhile_sublist _).length_le

theorem length_find?_le {pattern : List Char} {c c' : Cursor} (h : c.find? pattern = some c') :
    c'.rest.length ≤ c.rest.length := by
  obtain ⟨parts, hparts, rfl⟩ := Option.map_eq_some_iff.1 h
  have hlen := congrArg List.length (cutPattern?_eq_some hparts)
  simp only [List.length_append] at *
  omega

theorem length_past?_lt {pattern : List Char} {c c' : Cursor} (h : c.past? pattern = some c')
    (hp : pattern ≠ []) : c'.rest.length < c.rest.length := by
  obtain ⟨parts, hparts, rfl⟩ := Option.map_eq_some_iff.1 h
  have hlen := congrArg List.length (cutPattern?_eq_some hparts)
  have := List.length_pos_iff.2 hp
  simp only [List.length_append] at hlen
  show parts.2.length < _
  omega

end Cursor
end Lockstep.Markup
