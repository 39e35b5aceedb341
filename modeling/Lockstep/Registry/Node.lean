import Lockstep.Attributes
import Lockstep.Markup.Entity
import Lockstep.Registry.Path
import Lockstep.Value.Text

/- Entries as a forest.

   1. A `Node` is a leaf with a datum or a branch with nodes below it, in order of arrival; both have
      a name and attributes. The value of a branch is the container of its children's names, so a
      container lists exactly what lies below it.
   2. `get?` follows a path through a forest, `update` changes the node at the end of one, and
      `plant` adds a new node there, with the branches that are missing on the way.
   3. `Node.chars` is the markup of a node: a tag with its kind and attributes around its body. -/
namespace Lockstep.Registry

/-- An entry, with the entries below it. -/
inductive Node where
  | leaf (name : String) (attributes : Attributes) (datum : Datum)
  | branch (name : String) (attributes : Attributes) (children : List Node)
deriving Inhabited

/-- Top-level entries in order of arrival. -/
abbrev Forest := List Node

/-- The key under which a separator is kept. -/
def separatorKey : String := "separator"

/-- The key of the kind in markup; no entry has an attribute of this key. -/
def kindKey : String := "type"

/-- The separator that attributes ask for: the first character of its text. -/
def separatorOf (attributes : Attributes) : Char :=
  ((attributes.get? separatorKey).bind (·.toList.head?)).getD defaultSeparator

/-- A value with its attributes. -/
structure Entry where
  value : Value
  attributes : Attributes
deriving DecidableEq, Repr

def Entry.separator (e : Entry) : Char := separatorOf e.attributes

namespace Node

def name : Node → String
  | leaf name _ _ => name
  | branch name _ _ => name

def attributes : Node → Attributes
  | leaf _ attributes _ => attributes
  | branch _ attributes _ => attributes

/-- The nodes below; a leaf has none. -/
def children : Node → Forest
  | leaf _ _ _ => []
  | branch _ _ children => children

def value : Node → Value
  | leaf _ _ datum => .datum datum
  | branch _ _ children => .container (children.map name)

def kind (n : Node) : Kind := n.value.kind

def entry (n : Node) : Entry := ⟨n.value, n.attributes⟩

/-- A new node for a value. A container starts without children. -/
def fresh (name : String) : Value → Node
  | .datum d => leaf name [] d
  | .container _ => branch name [] []

/-- The node with another datum, or as it was when either side is a container. -/
def assign : Value → Node → Node
  | .datum d, leaf name attributes _ => leaf name attributes d
  | _, n => n

def mapAttributes (f : Attributes → Attributes) : Node → Node
  | leaf name attributes datum => leaf name (f attributes) datum
  | branch name attributes children => branch name (f attributes) children

def mapChildren (f : Forest → Forest) : Node → Node
  | leaf name attributes datum => leaf name attributes datum
  | branch name attributes children => branch name attributes (f children)

@[simp] theorem name_mapAttributes (f : Attributes → Attributes) (n : Node) :
    (n.mapAttributes f).name = n.name := by cases n <;> rfl

@[simp] theorem name_mapChildren (f : Forest → Forest) (n : Node) :
    (n.mapChildren f).name = n.name := by cases n <;> rfl

@[simp] theorem name_assign (v : Value) (n : Node) : (n.assign v).name = n.name := by
  cases n <;> cases v <;> rfl

@[simp] theorem children_assign (v : Value) (n : Node) : (n.assign v).children = n.children := by
  cases n <;> cases v <;> rfl

@[simp] theorem children_mapAttributes (f : Attributes → Attributes) (n : Node) :
    (n.mapAttributes f).children = n.children := by cases n <;> rfl

@[simp] theorem name_fresh (name : String) (v : Value) : (fresh name v).name = name := by
  cases v <;> rfl

@[simp] theorem kind_fresh (name : String) (v : Value) : (fresh name v).kind = v.kind := by
  cases v <;> rfl

/-- A node for the last of the segments, under branches for the others. -/
def chain (v : Value) : String → Path → Node
  | name, [] => fresh name v
  | name, next :: rest => branch name [] [chain v next rest]

end Node

namespace Forest

/-- The top-level node of a name. -/
def child? (name : String) (forest : Forest) : Option Node := forest.find? (·.name = name)

/-- The node at the end of a path. -/
def get? : Path → Forest → Option Node
  | [], _ => none
  | [name], forest => child? name forest
  | name :: next :: rest, forest =>
    (child? name forest).bind fun n => get? (next :: rest) n.children

/-- The forest with the top-level node of a name changed. -/
def updateChild (name : String) (f : Node → Node) : Forest → Forest
  | [] => []
  | n :: forest => if n.name = name then f n :: forest else n :: updateChild name f forest

/-- The forest with the node at the end of a path changed. -/
def update (f : Node → Node) : Path → Forest → Forest
  | [], forest => forest
  | [name], forest => updateChild name f forest
  | name :: next :: rest, forest =>
    updateChild name (Node.mapChildren (update f (next :: rest))) forest

/-- The forest with a new node at the end of a path where there was none. A leaf on the way there
    is an error, which names it; `above` is the path of the forest itself. -/
def plant (v : Value) (above : Path) : Path → Forest → Except Error Forest
  | [], forest => .ok forest
  | [name], forest => .ok (forest ++ [Node.fresh name v])
  | name :: next :: rest, forest =>
    match child? name forest with
    | none => .ok (forest ++ [Node.chain v name (next :: rest)])
    | some (.leaf ..) => .error (.invalidNamespace (Path.text (above ++ [name])))
    | some (.branch _ _ children) =>
      match plant v (above ++ [name]) (next :: rest) children with
      | .error e => .error e
      | .ok grown => .ok (updateChild name (Node.mapChildren fun _ => grown) forest)

end Forest

/-! ## Listing -/

mutual

/-- A node and all nodes below it, with their paths. -/
def Node.listing (above : Path) : Node → List (Path × Node)
  | .leaf name attributes datum => [(above ++ [name], .leaf name attributes datum)]
  | .branch name attributes children =>
    (above ++ [name], .branch name attributes children) ::
      Forest.listing (above ++ [name]) children

/-- All nodes of a forest, with their paths. -/
def Forest.listing (above : Path) : List Node → List (Path × Node)
  | [] => []
  | n :: forest => n.listing above ++ Forest.listing above forest

end

/-! ## Markup -/

/-- An attribute in a tag. -/
def attributeChars (pair : String × String) : List Char :=
  ' ' :: pair.1.toList ++ ['=', '"'] ++ Markup.escape pair.2.toList ++ ['"']

/-- The opening tag of an entry. -/
def openingChars (name : String) (kind : Kind) (attributes : Attributes) : List Char :=
  '<' :: name.toList ++ attributeChars (kindKey, kind.marker) ++
    attributes.flatMap attributeChars ++ ['>']

/-- The closing tag of an entry. -/
def closingChars (name : String) : List Char := '<' :: '/' :: name.toList ++ ['>']

mutual

/-- The markup of a node. -/
def Node.chars : Node → List Char
  | .leaf name attributes datum =>
    openingChars name datum.kind attributes ++
      Markup.escape (datum.chars (separatorOf attributes)) ++ closingChars name
  | .branch name attributes children =>
    openingChars name .container attributes ++ Forest.chars children ++ closingChars name

/-- The markup of the nodes of a forest, one after the other. -/
def Forest.chars : List Node → List Char
  | [] => []
  | n :: forest => n.chars ++ Forest.chars forest

end

end Lockstep.Registry
