import Lockstep.Markup.Parser
import Lockstep.Registry.Basic

/- Entries from markup.

   1. `load` adds an element and what is below it. The kind is that of the `type` attribute; without
      one, an element with children is a container and any other is guessed from its text. The
      other attributes go to the entry, after its children.
   2. An error stops the rest and keeps what was added before it, so a result comes with the registry
      it leaves behind.
   3. `ofMarkup` builds a registry from the markup of its entries. A lone container of the registry's
      own name is taken for the wrapping that `render` puts around them. -/
namespace Lockstep.Registry
open Markup

/-- The kind of an element. -/
def elementKind (attributes : Attributes) (text : String) (children : List Element) :
    Except Error Kind :=
  match attributes.get? kindKey with
  | some marker =>
    match Kind.ofMarker? marker with
    | some kind => .ok kind
    | none => .error (.unknownMarker marker)
  | none => .ok (if children.isEmpty then Kind.infer text else .container)

/-- The attributes of an element that its entry keeps. -/
def keptAttributes (attributes : Attributes) : Attributes :=
  attributes.filter fun pair => pair.1 ≠ kindKey

/-- The registry with attributes set at a path, one after the other. -/
def setAttributesAt (r : Registry) (p : Path) (pairs : Attributes) : Registry :=
  { r with forest := r.forest.update (Node.mapAttributes fun held => held.setAll pairs) p }

mutual

/-- An element added below a namespace. -/
def load (r : Registry) (scope : String) : Element → Except Error Path × Registry
  | ⟨name, attributes, text, children, _, _⟩ =>
    let kept := keptAttributes attributes
    match elementKind attributes text children with
    | .error e => (.error e, r)
    | .ok .container =>
      match r.addIn name scope (.container []) with
      | .error e => (.error e, r)
      | .ok (p, r') =>
        match loadAll r' p.scopeText children with
        | (.error e, r'') => (.error e, r'')
        | (.ok _, r'') => (.ok p, setAttributesAt r'' p kept)
    | .ok kind =>
      match r.addIn name scope (Value.ofBody kind text (separatorOf kept)) with
      | .error e => (.error e, r)
      | .ok (p, r') => (.ok p, setAttributesAt r' p kept)

/-- Elements added one after the other. -/
def loadAll (r : Registry) (scope : String) : List Element → Except Error (List Path) × Registry
  | [] => (.ok [], r)
  | e :: es =>
    match load r scope e with
    | (.error err, r') => (.error err, r')
    | (.ok p, r') =>
      match loadAll r' scope es with
      | (.error err, r'') => (.error err, r'')
      | (.ok ps, r'') => (.ok (p :: ps), r'')

end

/-- The first element of a text added below a namespace. -/
def addMarkupIn (r : Registry) (text scope : String) : Except Error Path × Registry :=
  match parseFirst text with
  | .error f => (.error (.markup f), r)
  | .ok e => load r scope e

/-- The first element of a text added in the current namespace. -/
def addMarkup (r : Registry) (text : String) : Except Error Path × Registry :=
  r.addMarkupIn text r.namespaceText

/-- All elements of a text added in the current namespace. -/
def addAllMarkup (r : Registry) (text : String) : Except Error (List Path) × Registry :=
  match parseAll text with
  | .error f => (.error (.markup f), r)
  | .ok es => loadAll r r.namespaceText es

/-- The elements inside a lone container of the given name, or else the elements themselves. -/
def unwrap (name : String) : List Element → List Element
  | [e] =>
    if e.name = name ∧ e.attribute? kindKey = some Kind.container.marker then e.children else [e]
  | es => es

/-- A registry from the markup of its entries, wrapped or not. -/
def ofMarkup (name text : String) : Except Error Registry :=
  match parseAll text with
  | .error f => .error (.markup f)
  | .ok es =>
    match loadAll (empty name) (empty name).namespaceText (unwrap name es) with
    | (.error e, _) => .error e
    | (.ok _, r) => .ok r

end Lockstep.Registry
