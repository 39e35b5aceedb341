import Lockstep.Registry.Basic
import Lockstep.Text.Cut

/- Scopes as texts.

   1. `outward` goes from the text of a namespace to that of the one around it, by cutting at slashes.
   2. `Climb` looks a name up without reading it: it puts the name behind the text of a scope, and goes outward
      until an entry has the absolute name that this gives, or the root was tried as well.
   3. `Nearest` says where that should end: in the scope with the most segments that has an entry of the name. -/
namespace Lockstep.Registry
open Text

/-- A relative name without the slashes behind it. -/
def bareName (name : String) : String := String.ofList (stripEndBy (· = '/') name.toList)

/-- The namespace around a namespace. What is around no other is the root. -/
def outward (scope : String) : String :=
  match cutLast? '/' (stripEndBy (· = '/') scope.toList) with
  | none => "/"
  | some ([], _) => "/"
  | some (before, _) => String.ofList before ++ "/"

/-- What the way outward from a scope ends with, and the absolute names that were tried on it. -/
inductive Climb (r : Registry) (name : String) : String → List String → Option String → Prop where
  | found {scope : String} (h : scope ++ name ∈ r.names) :
      Climb r name scope [scope ++ name] (some (scope ++ name))
  | missing (h : "/" ++ name ∉ r.names) : Climb r name "/" ["/" ++ name] none
  | outward {scope : String} {tried : List String} {result : Option String}
      (h : scope ++ name ∉ r.names) (hscope : scope ≠ "/")
      (hrest : Climb r name (outward scope) tried result) :
      Climb r name scope ((scope ++ name) :: tried) result

/-- The absolute name that a relative one gets in the scope of the first `k` segments of a namespace. -/
def inScope (s : Path) (name : String) (k : Nat) : String := Path.scopeText (s.take k) ++ bareName name

/-- In the scope of the first `k` segments an entry has the name, and in those nearer to the namespace none. -/
def Nearest (r : Registry) (s : Path) (name : String) (k : Nat) : Prop :=
  k ≤ s.length ∧ inScope s name k ∈ r.names ∧
    ∀ j, k < j → j ≤ s.length → inScope s name j ∉ r.names

end Lockstep.Registry
