import Lockstep.Registry.Operation

/- A registry as a table of names.

   1. A `Table` keeps every entry under its own path, and apart from the entries the names of those
      at the top in order of arrival. What lies below a container is known by the names that the
      container lists. Nothing ties the three together: a table can hold an entry below nothing, or
      list a name twice or for no entry.
   2. The operations of a registry, as they touch the table one step after the other: `link` lists an
      entry with the one above it, `grow` makes an entry and the containers missing above it,
      `addAt` and `load` stand on these. A step that fails leaves behind what was done before it.
   3. `write` follows the listed names from an entry downwards, and fails at a name without entry.
   4. A `Ledger` is a table with namespaces and saved tables, and `perform` runs an operation on it;
      `Ledger.of` is the ledger of a registry. -/
namespace Lockstep.Registry

structure Table where
  lookup? : Path → Option Entry
  /-- The names of the entries with one segment, in order of arrival. -/
  roots : List String

namespace Table

/-- The table without entries. -/
def empty : Table := ⟨fun _ => none, []⟩

/-- Whether there is an entry at a path. -/
def contains (t : Table) (p : Path) : Bool := (t.lookup? p).isSome

/-- An entry under a path, in place of the one there. -/
def put (t : Table) (p : Path) (e : Entry) : Table :=
  { t with lookup? := fun q => if q = p then some e else t.lookup? q }

/-! ## Adding -/

/-- A name listed with the entry at a path, or at the top. -/
def link (t : Table) (leaf : String) : Path → Except Error Unit × Table
  | [] => (.ok (), if leaf ∈ t.roots then t else { t with roots := t.roots ++ [leaf] })
  | first :: rest =>
    match t.lookup? (first :: rest) with
    | none => (.error (.notFound (Path.text (first :: rest))), t)
    | some e =>
      match e.value.extend [leaf] with
      | .error m => (.error (.mismatch m), t)
      | .ok (_, v) => (.ok (), t.put (first :: rest) { e with value := v })

/-- A new entry right below a path, listed there. -/
def insert (t : Table) (above : Path) (leaf : String) (v : Value) : Except Error Unit × Table :=
  (t.put (above ++ [leaf]) ⟨v, []⟩).link leaf above

/-- A new entry at the end of a path below `above`, with containers where entries are missing on the
    way. -/
def grow (t : Table) (v : Value) (above : Path) : Path → Except Error Unit × Table
  | [] => (.ok (), t)
  | [name] => t.insert above name v
  | name :: next :: rest =>
    match t.lookup? (above ++ [name]) with
    | some e =>
      if e.value.kind = .container then grow t v (above ++ [name]) (next :: rest)
      else (.error (.invalidNamespace (Path.text (above ++ [name]))), t)
    | none =>
      match t.insert above name (.container []) with
      | (.error e, t') => (.error e, t')
      | (.ok (), t') => grow t' v (above ++ [name]) (next :: rest)

/-- The first of the names that is not a child of the entry at `p`, as an error. -/
def checkChildren (t : Table) (p : Path) : List String → Except Error Unit
  | [] => .ok ()
  | child :: names =>
    if isSegment child.toList then
      if t.contains (p ++ [child]) then checkChildren t p names
      else .error (.danglingChild p.text child)
    else .error (.invalidName child)

/-- A value at a path. Names brought to a container that is there are added to those it lists. -/
def addAt (t : Table) (p : Path) (v : Value) : Except Error Unit × Table :=
  match t.checkChildren p (childNames v) with
  | .error e => (.error e, t)
  | .ok () =>
    match t.lookup? p with
    | none => t.grow v [] p
    | some e =>
      if e.value.kind = v.kind then
        match v with
        | .datum d => (.ok (), t.put p { e with value := .datum d })
        | .container names =>
          match e.value.extend names with
          | .error m => (.error (.mismatch m), t)
          | .ok (_, extended) => (.ok (), t.put p { e with value := extended })
      else (.error (.mismatch ⟨p.text, e.value.kind, v.kind⟩), t)

/-- A value under a name in a namespace. -/
def addIn (t : Table) (name scope : String) (v : Value) : Except Error Path × Table :=
  match Path.ofName name scope with
  | .error e => (.error e, t)
  | .ok p =>
    match t.addAt p v with
    | (.error e, t') => (.error e, t')
    | (.ok (), t') => (.ok p, t')

/-- An assignment `name=text` in a namespace; the value is added under the absolute name. -/
def assign (t : Table) (scope assignment : String) : Except Error Path × Table :=
  match Text.cutFirst? '=' assignment.toList with
  | none => (.error (.notAnAssignment assignment), t)
  | some (name, text) =>
    let text := String.ofList text
    match Path.ofName (String.ofList name) scope with
    | .error e => (.error e, t)
    | .ok p =>
      let v := match t.lookup? p with
        | some e => Value.ofBody e.value.kind text e.separator
        | none => Value.ofBody (Kind.infer text) text defaultSeparator
      t.addIn p.text "/" v

/-- Attributes set at a path, one after the other. -/
def setAttributesAt (t : Table) (p : Path) (pairs : Attributes) : Table :=
  match t.lookup? p with
  | none => t
  | some e => t.put p { e with attributes := e.attributes.setAll pairs }

mutual

/-- An element added below a namespace. -/
def load (t : Table) (scope : String) : Markup.Element → Except Error Path × Table
  | ⟨name, attributes, text, children, _, _⟩ =>
    let kept := keptAttributes attributes
    match elementKind attributes text children with
    | .error e => (.error e, t)
    | .ok .container =>
      match t.addIn name scope (.container []) with
      | (.error e, t') => (.error e, t')
      | (.ok p, t') =>
        match loadAll t' p.scopeText children with
        | (.error e, t'') => (.error e, t'')
        | (.ok _, t'') => (.ok p, t''.setAttributesAt p kept)
    | .ok kind =>
      match t.addIn name scope (Value.ofBody kind text (separatorOf kept)) with
      | (.error e, t') => (.error e, t')
      | (.ok p, t') => (.ok p, t'.setAttributesAt p kept)

/-- Elements added one after the other. -/
def loadAll (t : Table) (scope : String) :
    List Markup.Element → Except Error (List Path) × Table
  | [] => (.ok [], t)
  | e :: es =>
    match load t scope e with
    | (.error err, t') => (.error err, t')
    | (.ok p, t') =>
      match loadAll t' scope es with
      | (.error err, t'') => (.error err, t'')
      | (.ok ps, t'') => (.ok (p :: ps), t'')

end

/-! ## Looking up -/

/-- The nearest entry of a relative name, from a scope up to the root; the scope is given innermost
    segment first. -/
def search (t : Table) (relative : Path) : List String → Option Path
  | [] => if t.contains relative then some relative else none
  | segment :: outer =>
    let p := (segment :: outer).reverse ++ relative
    if t.contains p then some p else search t relative outer

/-- The entry that a name means in a namespace. -/
def resolve (t : Table) (name scope : String) : Except Error Path :=
  if name.toList.head? = some '/' then
    match Path.ofName name "/" with
    | .error e => .error e
    | .ok p => if t.contains p then .ok p else .error (.notFound p.text)
  else
    let cs := Text.stripEndBy (· = '/') name.toList
    match Path.ofScope scope with
    | .error e => .error e
    | .ok p =>
      match t.search ((cs.splitOn '/').map String.ofList) p.reverse with
      | some found => .ok found
      | none => .error (.notFound (String.ofList cs))

/-- An attribute set at the entry that a name means. -/
def setAttribute (t : Table) (scope name key text : String) : Except Error Unit × Table :=
  if key = kindKey then (.error (.invalidName key), t)
  else
    match t.resolve name scope with
    | .error e => (.error e, t)
    | .ok p =>
      match t.lookup? p with
      | none => (.error (.notFound p.text), t)
      | some e => (.ok (), t.put p { e with attributes := e.attributes.set key text })

/-- The path of a namespace, below the current one unless it starts with a slash. -/
def validate (t : Table) (current scope : String) : Except Error Path :=
  let full := if scope.toList.head? = some '/' then scope else current ++ scope
  match Path.ofScope full with
  | .error e => .error e
  | .ok [] => .ok []
  | .ok (first :: rest) =>
    match t.lookup? (first :: rest) with
    | none => .error (.invalidNamespace (Path.scopeText (first :: rest)))
    | some e =>
      if e.value.kind = .container then .ok (first :: rest)
      else .error (.invalidNamespace (Path.scopeText (first :: rest)))

/-- The paths of what the entry at a path lists. -/
def childrenAt (t : Table) (p : Path) : Except Error (List Path) :=
  match t.lookup? p with
  | none => .error (.notFound p.text)
  | some e =>
    match e.value.asContainer with
    | .ok names => .ok (names.map fun child => p ++ [child])
    | .error m => .error (.mismatch { m with name := p.text })

/-- The paths of what the entry that a name means lists. -/
def childrenIn (t : Table) (name scope : String) : Except Error (List Path) :=
  match t.resolve name scope with
  | .error e => .error e
  | .ok p => t.childrenAt p

/-! ## Markup -/

/-- Texts one after the other, up to the first that is missing or fails. -/
def inTurn : List (Option (Except Error (List Char))) → Option (Except Error (List Char))
  | [] => some (.ok [])
  | none :: _ => none
  | some (.error e) :: _ => some (.error e)
  | some (.ok cs) :: rest => (inTurn rest).map fun r => r.map (cs ++ ·)

/-- The markup of the entry at a path and of what it lists, followed to a depth; nothing when there
    is more below. -/
def write (t : Table) : Nat → Path → Option (Except Error (List Char))
  | 0, _ => none
  | depth + 1, p =>
    match t.lookup? p with
    | none => some (.error (.notFound p.text))
    | some e =>
      let name := p.getLastD ""
      let body : Option (Except Error (List Char)) := match e.value with
        | .datum d => some (.ok (Markup.escape (d.chars e.separator)))
        | .container names => inTurn (names.map fun child => t.write depth (p ++ [child]))
      body.map fun r =>
        r.map fun cs => openingChars name e.value.kind e.attributes ++ cs ++ closingChars name

/-- The markup of the entry that a name means. -/
def writeIn (t : Table) (depth : Nat) (name scope : String) : Option (Except Error (List Char)) :=
  match t.resolve name scope with
  | .error e => some (.error e)
  | .ok p => t.write depth p

/-- The markup of the top-level entries, one after the other. -/
def writeRoots (t : Table) (depth : Nat) : Option (Except Error (List Char)) :=
  inTurn (t.roots.map fun name => t.write depth [name])

end Table

/-! ## Ledgers -/

structure Ledger where
  name : String
  table : Table
  /-- Namespaces pushed and not popped, the current one first. -/
  scopes : List Path
  /-- Tables saved and not restored, the latest first. -/
  saved : List Table

namespace Ledger

/-- The ledger without entries. -/
def empty (name : String) : Ledger := ⟨name, .empty, [], []⟩

/-- The current namespace, as text. -/
def namespaceText (l : Ledger) : String := (l.scopes.headD []).scopeText

/-- What a step on the table leaves. -/
def onTable {α : Type} (l : Ledger) (r : Except Error α × Table) : Option Error × Ledger :=
  (errorOf r.1, { l with table := r.2 })

/-- The error that an operation ends with, and the ledger after it. -/
def perform (l : Ledger) : Operation → Option Error × Ledger
  | .add name v => l.onTable (l.table.addIn name l.namespaceText v)
  | .addIn name scope v => l.onTable (l.table.addIn name scope v)
  | .assign assignment => l.onTable (l.table.assign l.namespaceText assignment)
  | .addMarkup text =>
    match Markup.parseFirst text with
    | .error f => (some (.markup f), l)
    | .ok e => l.onTable (l.table.load l.namespaceText e)
  | .addMarkupIn text scope =>
    match Markup.parseFirst text with
    | .error f => (some (.markup f), l)
    | .ok e => l.onTable (l.table.load scope e)
  | .addAllMarkup text =>
    match Markup.parseAll text with
    | .error f => (some (.markup f), l)
    | .ok es => l.onTable (l.table.loadAll l.namespaceText es)
  | .setAttribute name key text =>
    l.onTable (l.table.setAttribute l.namespaceText name key text)
  | .pushNamespace scope =>
    match l.table.validate l.namespaceText scope with
    | .error e => (some e, l)
    | .ok p => (none, { l with scopes := p :: l.scopes })
  | .popNamespace => (none, { l with scopes := l.scopes.tail })
  | .saveState => (none, { l with saved := l.table :: l.saved })
  | .restoreState =>
    match l.saved with
    | [] => (some .noSavedState, l)
    | table :: saved => (none, { l with table, saved })

/-- The ledger after operations. -/
def after (l : Ledger) (ops : List Operation) : Ledger :=
  ops.foldl (fun l op => (l.perform op).2) l

/-- A ledger from the markup of its entries, wrapped or not. -/
def ofMarkup (name text : String) : Except Error Ledger :=
  match Markup.parseAll text with
  | .error f => .error (.markup f)
  | .ok es =>
    match Table.empty.loadAll (empty name).namespaceText (unwrap name es) with
    | (.error e, _) => .error e
    | (.ok _, table) => .ok { empty name with table }

/-- A ledger as it may be found. -/
inductive Reachable : Ledger → Prop
  | empty (name : String) : Reachable (.empty name)
  | ofMarkup {name text : String} {l : Ledger} (h : ofMarkup name text = .ok l) : Reachable l
  | perform {l : Ledger} (h : Reachable l) (op : Operation) : Reachable (l.perform op).2

theorem Reachable.after {l : Ledger} (h : Reachable l) (ops : List Operation) :
    Reachable (l.after ops) := by
  induction ops generalizing l with
  | nil => exact h
  | cons op ops ih => exact ih (h.perform op)

end Ledger

/-! ## The table of a forest -/

/-- The entries of a forest under their paths. -/
def Table.of (forest : Forest) : Table :=
  ⟨fun p => (forest.get? p).map Node.entry, forest.map Node.name⟩

/-- The ledger of a registry. -/
def Ledger.of (r : Registry) : Ledger :=
  ⟨r.name, .of r.forest, r.scopes, r.saved.map .of⟩

end Lockstep.Registry
