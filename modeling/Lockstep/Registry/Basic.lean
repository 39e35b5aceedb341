import Lockstep.Registry.Node

/- The registry: typed values under hierarchical names.

   1. A `Registry` is a forest of entries with a stack of namespaces, of which the innermost is the
      current one, and a stack of saved forests.
   2. `addIn` gives a name a value. It refuses before it changes anything: a malformed name, a
      container with a child that is not there, a name in use for another kind, and an entry above
      the new one that is no container. Missing entries above a new one become containers.
   3. `resolve` finds the entry that a name means in a namespace: the nearest scope that has it,
      going from the namespace up to the root.
   4. `saveState` keeps the forest and `restoreState` brings it back; namespaces are not part of
      what is saved. -/
namespace Lockstep.Registry

/-- The name of a registry that was not given one. -/
def defaultName : String := "MVR"

end Lockstep.Registry

namespace Lockstep

structure Registry where
  name : String
  forest : Registry.Forest
  /-- Namespaces pushed and not popped, the current one first; below them lies the root. -/
  scopes : List Registry.Path
  /-- Forests saved and not restored, the latest first. -/
  saved : List Registry.Forest

namespace Registry

/-- The registry without entries. -/
def empty (name : String) : Registry := ⟨name, [], [], []⟩

/-- The current namespace. -/
def currentPath (r : Registry) : Path := r.scopes.headD []

/-- The current namespace, as text. -/
def namespaceText (r : Registry) : String := r.currentPath.scopeText

/-- The entry at a path. -/
def entry? (r : Registry) (p : Path) : Option Entry := (r.forest.get? p).map Node.entry

/-- Whether there is an entry at a path. -/
def contains (r : Registry) (p : Path) : Bool := (r.forest.get? p).isSome

/-! ## Adding -/

/-- The first of the names that is not a child of the entry at `p`, as an error. -/
def checkChildren (r : Registry) (p : Path) : List String → Except Error Unit
  | [] => .ok ()
  | child :: names =>
    if isSegment child.toList then
      if r.contains (p ++ [child]) then checkChildren r p names
      else .error (.danglingChild p.text child)
    else .error (.invalidName child)

/-- The names of children that a value brings. -/
def childNames : Value → List String
  | .container names => names
  | .datum _ => []

/-- A value at a path. -/
def addAt (r : Registry) (p : Path) (v : Value) : Except Error Registry :=
  match r.checkChildren p (childNames v) with
  | .error e => .error e
  | .ok () =>
    match r.forest.get? p with
    | some n =>
      if n.kind = v.kind then .ok { r with forest := r.forest.update (Node.assign v) p }
      else .error (.mismatch ⟨p.text, n.kind, v.kind⟩)
    | none =>
      match r.forest.plant v [] p with
      | .error e => .error e
      | .ok forest => .ok { r with forest }

/-- A value under a name in a namespace; the path of its entry is returned. -/
def addIn (r : Registry) (name scope : String) (v : Value) : Except Error (Path × Registry) :=
  match Path.ofName name scope with
  | .error e => .error e
  | .ok p =>
    match r.addAt p v with
    | .error e => .error e
    | .ok r' => .ok (p, r')

/-- A value under a name in the current namespace. -/
def add (r : Registry) (name : String) (v : Value) : Except Error (Path × Registry) :=
  r.addIn name r.namespaceText v

/-- An assignment `name=text`. The kind and the separator are those of the entry when there is one;
    otherwise the kind is guessed from the text. -/
def assign (r : Registry) (assignment : String) : Except Error (Path × Registry) :=
  match Text.cutFirst? '=' assignment.toList with
  | none => .error (.notAnAssignment assignment)
  | some (name, text) =>
    let text := String.ofList text
    match Path.ofName (String.ofList name) r.namespaceText with
    | .error e => .error e
    | .ok p =>
      let v := match r.entry? p with
        | some e => Value.ofBody e.value.kind text e.separator
        | none => Value.ofBody (Kind.infer text) text defaultSeparator
      match r.addAt p v with
      | .error e => .error e
      | .ok r' => .ok (p, r')

/-! ## Looking up -/

/-- The nearest entry of a relative name, from a scope up to the root; the scope is given innermost
    segment first. -/
def search (r : Registry) (relative : Path) : List String → Option Path
  | [] => if r.contains relative then some relative else none
  | segment :: outer =>
    let p := (segment :: outer).reverse ++ relative
    if r.contains p then some p else search r relative outer

/-- The entry that a name means in a namespace. -/
def resolve (r : Registry) (name scope : String) : Except Error Path :=
  if name.toList.head? = some '/' then
    match Path.ofName name "/" with
    | .error e => .error e
    | .ok p => if r.contains p then .ok p else .error (.notFound p.text)
  else
    let cs := Text.stripEndBy (· = '/') name.toList
    match Path.ofScope scope with
    | .error e => .error e
    | .ok p =>
      match r.search ((cs.splitOn '/').map String.ofList) p.reverse with
      | some found => .ok found
      | none => .error (.notFound (String.ofList cs))

/-- The node that a name means, with its path. -/
def nodeIn (r : Registry) (name scope : String) : Except Error (Path × Node) :=
  match r.resolve name scope with
  | .error e => .error e
  | .ok p =>
    match r.forest.get? p with
    | some n => .ok (p, n)
    | none => .error (.notFound p.text)

/-- The entry that a name means. -/
def entryIn (r : Registry) (name scope : String) : Except Error Entry :=
  (r.nodeIn name scope).map fun found => found.2.entry

/-- The value that a name means. -/
def getIn (r : Registry) (name scope : String) : Except Error Value :=
  (r.entryIn name scope).map Entry.value

/-- The value that a name means in the current namespace. -/
def get (r : Registry) (name : String) : Except Error Value := r.getIn name r.namespaceText

/-- Whether a name means an entry. -/
def existsIn (r : Registry) (name scope : String) : Bool := (r.resolve name scope).toOption.isSome

/-- What `view` makes of the value of a name, or `fallback` when there is none of its kind. -/
def getOr {α : Type} (r : Registry) (name : String) (view : Value → Except Mismatch α)
    (fallback : α) : α :=
  match r.get name with
  | .error _ => fallback
  | .ok v => (view v).toOption.getD fallback

/-- The paths of the children of a container. -/
def childrenOf (r : Registry) (name : String) : Except Error (List Path) :=
  match r.nodeIn name r.namespaceText with
  | .error e => .error e
  | .ok (p, n) =>
    match n.value.asContainer with
    | .ok names => .ok (names.map fun child => p ++ [child])
    | .error m => .error (.mismatch { m with name := p.text })

/-! ## Attributes -/

/-- An attribute of the entry that a name means. -/
def attribute? (r : Registry) (name key : String) : Option String :=
  (r.entryIn name r.namespaceText).toOption.bind fun e => e.attributes.get? key

/-- An attribute set at the entry that a name means. The kind is not one of them. -/
def setAttribute (r : Registry) (name key text : String) : Except Error Registry :=
  if key = kindKey then .error (.invalidName key)
  else
    match r.resolve name r.namespaceText with
    | .error e => .error e
    | .ok p =>
      .ok { r with forest := r.forest.update (Node.mapAttributes (Attributes.set key text)) p }

/-! ## Namespaces -/

/-- The path of a namespace, below the current one unless it starts with a slash; it is the root or
    a container. -/
def validate (r : Registry) (scope : String) : Except Error Path :=
  let full := if scope.toList.head? = some '/' then scope else r.namespaceText ++ scope
  match Path.ofScope full with
  | .error e => .error e
  | .ok [] => .ok []
  | .ok p =>
    match r.forest.get? p with
    | some (.branch ..) => .ok p
    | _ => .error (.invalidNamespace p.scopeText)

/-- The registry in a namespace. -/
def pushNamespace (r : Registry) (scope : String) : Except Error Registry :=
  match r.validate scope with
  | .error e => .error e
  | .ok p => .ok { r with scopes := p :: r.scopes }

/-- The registry back in the namespace before; the root is never left. -/
def popNamespace (r : Registry) : Registry := { r with scopes := r.scopes.tail }

/-! ## Saved states -/

def saveState (r : Registry) : Registry := { r with saved := r.forest :: r.saved }

def restoreState (r : Registry) : Except Error Registry :=
  match r.saved with
  | [] => .error .noSavedState
  | forest :: saved => .ok { r with forest, saved }

/-! ## Listing -/

/-- All entries with their absolute names, in the order of the names. -/
def sorted (r : Registry) : List (String × Node) :=
  ((Forest.listing [] r.forest).map fun found => (Path.text found.1, found.2)).mergeSort
    fun a b => !decide (b.1 < a.1)

/-- The number of entries. -/
def size (r : Registry) : Nat := (Forest.listing [] r.forest).length

/-- The absolute names of all entries, in order. -/
def names (r : Registry) : List String := r.sorted.map Prod.fst

/-- The names of the top-level entries, in order of arrival. -/
def roots (r : Registry) : List String := r.forest.map Node.name

/-- The absolute names of the entries for which `p` holds, in order. -/
def select (r : Registry) (p : Node → Bool) : List String :=
  (r.sorted.filter fun found => p found.2).map Prod.fst

/-- Entries of a kind. -/
def selectKind (r : Registry) (kind : Kind) : List String := r.select fun n => n.kind = kind

/-- Entries whose last segment is `key`. -/
def selectName (r : Registry) (key : String) : List String := r.select fun n => n.name = key

/-- Entries that have an attribute, with a given text if one is given. -/
def selectAttribute (r : Registry) (key : String) (text : Option String) : List String :=
  r.select fun n => match n.attributes.get? key, text with
    | some found, some wanted => found = wanted
    | some _, none => true
    | none, _ => false

/-! ## Markup -/

/-- The markup of the top-level entries, one after the other. -/
def renderRoots (r : Registry) : String := String.ofList (Forest.chars r.forest)

/-- The markup of all entries, in a container with the name of the registry. -/
def render (r : Registry) : String :=
  String.ofList ('<' :: r.name.toList ++ attributeChars (kindKey, Kind.container.marker) ++ ['>'] ++
    Forest.chars r.forest ++ closingChars r.name)

/-- The markup of the entry that a name means. -/
def renderIn (r : Registry) (name scope : String) : Except Error String :=
  (r.nodeIn name scope).map fun found => String.ofList found.2.chars

end Registry
end Lockstep
