import Lockstep.Registry.Error
import Lockstep.Text.Letter

/- Names of entries.

   1. A `Path` lists the segments of a name from the root down; the root itself has none. `text` is
      the absolute name, a slash before each segment; `scopeText` is the form of a namespace, with
      a slash at the end as well.
   2. A segment starts with a letter or an underscore and goes on with letters, numbers and `_`,
      `-`, `.`, `:`.
   3. `ofScope` reads a namespace, with or without slashes around it. `ofName` reads a name: from
      the root when it starts with a slash, and otherwise below a namespace. Both refuse the first
      segment that is not well formed. -/
namespace Lockstep.Registry
open Text

/-- The segments of a name, from the root down. -/
abbrev Path := List String

/-- What a segment may start with. -/
def startsSegment (c : Char) : Bool := isLetter c || c = '_'

/-- What a segment may go on with. -/
def continuesSegment (c : Char) : Bool :=
  isLetterOrNumber c || c = '_' || c = '-' || c = '.' || c = ':'

/-- A well-formed segment. -/
def isSegment : List Char → Bool
  | [] => false
  | c :: cs => startsSegment c && cs.all continuesSegment

namespace Path

/-- The absolute name: a slash before each segment. -/
def text : Path → String
  | [] => ""
  | segment :: rest => "/" ++ segment ++ text rest

/-- The form of a namespace: the absolute name and a slash. -/
def scopeText (p : Path) : String := p.text ++ "/"

/-- The segments, when each of them is well formed; otherwise the first that is not. -/
def ofSegments : List (List Char) → Except Error Path
  | [] => .ok []
  | cs :: rest =>
    if isSegment cs then
      match ofSegments rest with
      | .error e => .error e
      | .ok p => .ok (String.ofList cs :: p)
    else .error (.invalidName (String.ofList cs))

/-- The path of a namespace. -/
def ofScope (scope : String) : Except Error Path :=
  match stripBy (· = '/') (stripBy isBlank scope.toList) with
  | [] => .ok []
  | cs => ofSegments (cs.splitOn '/')

/-- A name with the namespace in front of it, unless it starts with a slash. -/
def qualified (cs : List Char) (scope : String) : Except Error (List Char) :=
  if cs.head? = some '/' then .ok cs
  else (ofScope scope).map fun p => p.scopeText.toList ++ cs

/-- The path of a name. -/
def ofName (name scope : String) : Except Error Path :=
  let cs := stripBy isBlank name.toList
  match qualified cs scope with
  | .error e => .error e
  | .ok full =>
    match stripBy (· = '/') full with
    | [] => .error (.invalidName (String.ofList cs))
    | body => ofSegments (body.splitOn '/')

/-- Every segment is well formed. -/
def WellFormed (p : Path) : Prop := ∀ segment ∈ p, isSegment segment.toList = true

instance (p : Path) : Decidable p.WellFormed :=
  inferInstanceAs (Decidable (∀ segment ∈ p, _))

theorem wellFormed_of_ofSegments {pieces : List (List Char)} {p : Path}
    (h : ofSegments pieces = .ok p) : p.WellFormed := by
  induction pieces generalizing p with
  | nil =>
    cases h
    simp [WellFormed]
  | cons cs rest ih =>
    unfold ofSegments at h
    split at h
    · rename_i hs
      split at h
      · cases h
      · rename_i q hq
        cases h
        intro segment hm
        rcases List.mem_cons.1 hm with rfl | hm
        · simpa using hs
        · exact ih hq segment hm
    · cases h

theorem wellFormed_of_ofScope {scope : String} {p : Path} (h : ofScope scope = .ok p) :
    p.WellFormed := by
  unfold ofScope at h
  split at h
  · cases h
    simp [WellFormed]
  · exact wellFormed_of_ofSegments h

theorem wellFormed_of_ofName {name scope : String} {p : Path} (h : ofName name scope = .ok p) :
    p.WellFormed := by
  unfold ofName at h
  simp only at h
  split at h
  · cases h
  · split at h
    · cases h
    · exact wellFormed_of_ofSegments h

end Path
end Lockstep.Registry
