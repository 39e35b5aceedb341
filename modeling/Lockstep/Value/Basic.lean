import Lockstep.Numeral.Binary32

/- Typed values.

   1. A `Datum` is a number, a text, a list of one of these, or nothing; a `Value` is a datum or a
      container, which is known by the names of its children in order of arrival.
   2. Every value has one `Kind`, and every kind a marker, its spelling in the `type` attribute.
   3. Nothing is converted: asking a value for another kind than its own is a `Mismatch`.
   4. `Value.extend` adds names to a container. `newNames` are those it did not hold, each once, in
      order of first occurrence; what was there stays in front.
   5. `Value.extendInPlace` changes the value itself, one name after the other, and keeps a `Roll` of
      what is listed by then. -/
namespace Lockstep

/-- The kinds of values. -/
inductive Kind where
  | empty | int | float | text | ints | floats | texts | container
deriving DecidableEq, Repr

namespace Kind

/-- All kinds. -/
def all : List Kind := [empty, int, float, text, ints, floats, texts, container]

/-- The spelling of a kind. -/
def marker : Kind → String
  | empty => "none"
  | int => "int"
  | float => "float"
  | text => "string"
  | ints => "intarray"
  | floats => "floatarray"
  | texts => "stringarray"
  | container => "container"

/-- Whether the blanks around a body belong to the value. -/
def keepsBlanks : Kind → Bool
  | text | texts => true
  | _ => false

theorem mem_all (k : Kind) : k ∈ all := by cases k <;> decide

end Kind

/-- A value that has no children. -/
inductive Datum where
  | empty
  | int (n : Int32)
  | float (x : Binary32)
  | text (s : String)
  | ints (ns : List Int32)
  | floats (xs : List Binary32)
  | texts (ss : List String)
deriving DecidableEq, Repr

/-- A datum, or the names of a container's children. -/
inductive Value where
  | datum (d : Datum)
  | container (names : List String)
deriving DecidableEq, Repr

/-- A value was asked for as a kind that is not its own. The name is that of the entry that holds
    it, empty for a value on its own. -/
structure Mismatch where
  name : String
  stored : Kind
  requested : Kind
deriving DecidableEq, Repr

def Mismatch.message (m : Mismatch) : String :=
  s!"type mismatch for {m.name}: stored {m.stored.marker}, requested {m.requested.marker}"

def Datum.kind : Datum → Kind
  | empty => .empty
  | int _ => .int
  | float _ => .float
  | text _ => .text
  | ints _ => .ints
  | floats _ => .floats
  | texts _ => .texts

/-- Comparison of the numbers, not of their bits. -/
def Datum.same : Datum → Datum → Bool
  | float x, float y => x.same y
  | floats xs, floats ys => xs.length == ys.length && (xs.zip ys).all fun p => p.1.same p.2
  | d, e => d == e

namespace Value

def kind : Value → Kind
  | datum d => d.kind
  | container _ => .container

/-- Comparison of the numbers, not of their bits. -/
def same : Value → Value → Bool
  | datum d, datum e => d.same e
  | v, w => v == w

/-- The value of a kind before it is given one. -/
def initial : Kind → Value
  | .empty => datum .empty
  | .int => datum (.int 0)
  | .float => datum (.float .zero)
  | .text => datum (.text "")
  | .ints => datum (.ints [])
  | .floats => datum (.floats [])
  | .texts => datum (.texts [])
  | .container => container []

@[simp] theorem kind_initial (k : Kind) : (initial k).kind = k := by cases k <;> rfl

/-! ## Access by kind -/

/-- The error of asking for another kind. -/
def mismatch (v : Value) (requested : Kind) : Mismatch := ⟨"", v.kind, requested⟩

def asInt : Value → Except Mismatch Int32
  | datum (.int n) => .ok n
  | v => .error (v.mismatch .int)

def asFloat : Value → Except Mismatch Binary32
  | datum (.float x) => .ok x
  | v => .error (v.mismatch .float)

def asText : Value → Except Mismatch String
  | datum (.text s) => .ok s
  | v => .error (v.mismatch .text)

def asInts : Value → Except Mismatch (List Int32)
  | datum (.ints ns) => .ok ns
  | v => .error (v.mismatch .ints)

def asFloats : Value → Except Mismatch (List Binary32)
  | datum (.floats xs) => .ok xs
  | v => .error (v.mismatch .floats)

def asTexts : Value → Except Mismatch (List String)
  | datum (.texts ss) => .ok ss
  | v => .error (v.mismatch .texts)

def asContainer : Value → Except Mismatch (List String)
  | container names => .ok names
  | v => .error (v.mismatch .container)

/-! ## Containers -/

/-- The names that are not held yet, each once, in order of first occurrence. -/
def newNames (held : List String) : List String → List String
  | [] => []
  | name :: names =>
    if name ∈ held then newNames held names else name :: newNames (held ++ [name]) names

theorem newNames_cons_of_mem {held names : List String} {name : String} (h : name ∈ held) :
    newNames held (name :: names) = newNames held names :=
  if_pos h

theorem newNames_cons_of_not_mem {held names : List String} {name : String} (h : name ∉ held) :
    newNames held (name :: names) = name :: newNames (held ++ [name]) names :=
  if_neg h

theorem newNames_eq_nil {held names : List String} (h : ∀ name ∈ names, name ∈ held) :
    newNames held names = [] := by
  induction names with
  | nil => rfl
  | cons name rest ih =>
    rw [newNames_cons_of_mem (h name List.mem_cons_self)]
    exact ih fun n hn => h n (List.mem_cons_of_mem name hn)

/-- Names added to a container, with the number of those that are new. -/
def extend (v : Value) (names : List String) : Except Mismatch (Nat × Value) :=
  match v with
  | container held =>
    let added := newNames held names
    .ok (added.length, container (held ++ added))
  | v => .error (v.mismatch .container)

/-- A new name is put at the end. -/
theorem extend_singleton {held : List String} {name : String} (h : name ∉ held) :
    (container held).extend [name] = .ok (1, container (held ++ [name])) := by
  simp only [extend, newNames_cons_of_not_mem h]
  rfl

/-- Names that are held already bring nothing. -/
theorem extend_of_forall_mem {held names : List String} (h : ∀ name ∈ names, name ∈ held) :
    (container held).extend names = .ok (0, container held) := by
  rw [extend, newNames_eq_nil h, List.append_nil, List.length_nil]

/-- What a container lists while names are added to it, and how many of them were new so far. -/
structure Roll where
  listed : List String
  added : Nat
deriving DecidableEq, Repr

/-- A name put at the end and counted, unless it is listed. -/
def Roll.enter (r : Roll) (name : String) : Roll :=
  if name ∈ r.listed then r else ⟨r.listed ++ [name], r.added + 1⟩

/-- Names added to a container where it stands: how many were new, and the value that is there
    afterwards. -/
def extendInPlace (v : Value) (names : List String) : Except Mismatch Nat × Value :=
  match v with
  | container held =>
    let roll := names.foldl Roll.enter ⟨held, 0⟩
    (.ok roll.added, container roll.listed)
  | v => (.error (v.mismatch .container), v)

end Value
end Lockstep
