import Lockstep.Markup.Element
import Lockstep.Text.Quoted
import Lockstep.Value.Basic

/- What can go wrong with a registry: each constructor is one cause, with what it is about. -/
namespace Lockstep.Registry

inductive Error where
  /-- Nothing has this name. -/
  | notFound (name : String)
  /-- A name that is in use for a value of another kind. -/
  | mismatch (m : Mismatch)
  /-- A container was given a child that does not exist below it. -/
  | danglingChild (container child : String)
  /-- A name, or a segment of one, that is not well formed. -/
  | invalidName (name : String)
  /-- A scope, or an entry above a new one, that is not a container. -/
  | invalidNamespace (name : String)
  | markup (f : Markup.Fault)
  /-- An assignment without an equals sign. -/
  | notAnAssignment (text : String)
  | unknownMarker (marker : String)
  | noSavedState
deriving DecidableEq, Repr

def Error.message : Error → String
  | notFound name => s!"name not found: {name}"
  | mismatch m => m.message
  | danglingChild container child =>
    s!"container {container} lists {child}, which does not resolve"
  | invalidName name => s!"invalid name: {Text.quoted name}"
  | invalidNamespace name => s!"namespace is not a container: {name}"
  | markup f => f.message
  | notAnAssignment text => s!"parse error at byte 0: expected name=value, got {Text.quoted text}"
  | unknownMarker marker => s!"unknown type marker: {Text.quoted marker}"
  | noSavedState => "state stack is empty"

end Lockstep.Registry
