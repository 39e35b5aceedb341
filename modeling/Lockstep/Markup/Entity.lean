/- The five entities of markup text.

   `escape` writes the characters that mean something to the parser as entities, so that its result
   can stand in character data and between quotes of either sort. `unescape` reads the five entities
   and leaves every other ampersand alone. -/
namespace Lockstep.Markup

/-- A character of a text, as an entity when the parser would take it for markup. -/
def escapeChar (c : Char) : List Char :=
  if c = '&' then ['&', 'a', 'm', 'p', ';']
  else if c = '<' then ['&', 'l', 't', ';']
  else if c = '>' then ['&', 'g', 't', ';']
  else if c = '"' then ['&', 'q', 'u', 'o', 't', ';']
  else if c = '\'' then ['&', 'a', 'p', 'o', 's', ';']
  else [c]

/-- A text with its markup characters as entities. -/
def escape (cs : List Char) : List Char := cs.flatMap escapeChar

/-- A text with its entities read. -/
def unescape : List Char → List Char
  | '&' :: 'a' :: 'm' :: 'p' :: ';' :: cs => '&' :: unescape cs
  | '&' :: 'l' :: 't' :: ';' :: cs => '<' :: unescape cs
  | '&' :: 'g' :: 't' :: ';' :: cs => '>' :: unescape cs
  | '&' :: 'q' :: 'u' :: 'o' :: 't' :: ';' :: cs => '"' :: unescape cs
  | '&' :: 'a' :: 'p' :: 'o' :: 's' :: ';' :: cs => '\'' :: unescape cs
  | c :: cs => c :: unescape cs
  | [] => []

/-- `escape` on strings. -/
def escapeText (s : String) : String := String.ofList (escape s.toList)

/-- `unescape` on strings. -/
def unescapeText (s : String) : String := String.ofList (unescape s.toList)

@[simp] theorem escape_nil : escape [] = [] := rfl

@[simp] theorem escape_cons (c : Char) (cs : List Char) :
    escape (c :: cs) = escapeChar c ++ escape cs := by simp [escape]

@[simp] theorem escape_append (a b : List Char) : escape (a ++ b) = escape a ++ escape b := by
  simp [escape]

end Lockstep.Markup
