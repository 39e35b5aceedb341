import Lockstep.Registry.Load

/- Payloads: what an event carries.

   A payload is a snapshot of a registry or the text of one. Either has a text, the markup of the
   top-level entries, and a name, that of the first of them. -/
namespace Lockstep

inductive Payload where
  | snapshot (r : Registry)
  | written (text : String)

namespace Payload

def text : Payload → String
  | snapshot r => r.renderRoots
  | written text => text

/-- The registry of a payload: the snapshot, or a new one with the entries of the text. -/
def toRegistry : Payload → Except Registry.Error Registry
  | snapshot r => .ok r
  | written text =>
    match (Registry.empty Registry.defaultName).addAllMarkup text with
    | (.error e, _) => .error e
    | (.ok _, r) => .ok r

/-- The name of the first entry. -/
def name? : Payload → Option String
  | snapshot r => r.roots.head?
  | written text => (Markup.parseFirst text).toOption.map Markup.Element.name

end Payload
end Lockstep
