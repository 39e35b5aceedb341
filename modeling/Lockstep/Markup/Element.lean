import Lockstep.Attributes
import Lockstep.Text.Blank

/- Elements of markup, and what can be wrong with a text.

   1. An `Element` has a name, attributes, its own character data with the entities read, child
      elements, and the span of its body in the text it was read from, in bytes.
   2. A `Fault` is a cause at a byte offset. -/
namespace Lockstep.Markup

/-- An element. The body runs from the end of the opening tag to the start of the closing one; it
    is empty, and ends with the tag, for a tag that closes itself. -/
structure Element where
  name : String
  attributes : Attributes
  text : String
  children : List Element
  bodyStart : Nat
  bodyEnd : Nat
deriving Inhabited

/-- How deep elements may be nested. -/
def maxDepth : Nat := 256

/-- What a text can be wrong in. -/
inductive Cause where
  | textOutside
  | notABoundary
  | expectedElement
  | unterminatedConstruct
  | expected (c : Char)
  | expectedName
  | expectedQuote
  | unterminatedValue
  | tooDeep
  | unterminatedTag
  | unclosed (name : String)
  | mismatched (closing name : String)
deriving DecidableEq, Repr

/-- A cause, and the offset at which it was found. -/
structure Fault where
  offset : Nat
  cause : Cause
deriving DecidableEq, Repr

def Cause.message : Cause → String
  | textOutside => "text outside of any element"
  | notABoundary => "offset is not on a character boundary"
  | expectedElement => "expected an element"
  | unterminatedConstruct => "unterminated markup construct"
  | expected c => s!"expected '{c}'"
  | expectedName => "expected a name"
  | expectedQuote => "expected a quoted attribute value"
  | unterminatedValue => "unterminated attribute value"
  | tooDeep => "elements nested too deeply"
  | unterminatedTag => "unterminated opening tag"
  | unclosed name => s!"missing closing tag for <{name}>"
  | mismatched closing name => s!"closing tag </{closing}> does not match <{name}>"

def Fault.message (f : Fault) : String :=
  s!"parse error at byte {f.offset}: {f.cause.message}"

/-- The text of an attribute. -/
def Element.attribute? (e : Element) (key : String) : Option String := e.attributes.get? key

mutual

/-- An element and all elements under it, each with its depth, parents first. -/
def Element.preorder (depth : Nat) : Element → List (Nat × Element)
  | ⟨name, attributes, text, children, bodyStart, bodyEnd⟩ =>
    (depth, ⟨name, attributes, text, children, bodyStart, bodyEnd⟩) ::
      Element.preorderAll (depth + 1) children

/-- `preorder` of each element in turn. -/
def Element.preorderAll (depth : Nat) : List Element → List (Nat × Element)
  | [] => []
  | e :: es => e.preorder depth ++ Element.preorderAll depth es

end

end Lockstep.Markup
