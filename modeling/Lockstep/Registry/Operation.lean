import Lockstep.Registry.Load

/- What can happen to a registry.

   1. An `Operation` is a call that may change a registry. `perform` gives the error it ends with, if
      any, and the registry after it: a load that fails leaves behind what it added before.
   2. `after` runs operations one after the other, whatever each of them ends with.
   3. `Reachable` holds of every registry that operations make of an empty one or of one read from
      markup. -/
namespace Lockstep.Registry

inductive Operation where
  | add (name : String) (v : Value)
  | addIn (name scope : String) (v : Value)
  | assign (assignment : String)
  | addMarkup (text : String)
  | addMarkupIn (text scope : String)
  | addAllMarkup (text : String)
  | setAttribute (name key text : String)
  | pushNamespace (scope : String)
  | popNamespace
  | saveState
  | restoreState

/-- A change that happens in full or not at all. -/
def orUnchanged (r : Registry) : Except Error Registry → Option Error × Registry
  | .ok r' => (none, r')
  | .error e => (some e, r)

/-- The error of an outcome. -/
def errorOf {α : Type} : Except Error α → Option Error
  | .ok _ => none
  | .error e => some e

/-- The error that an operation ends with, and the registry after it. -/
def perform (r : Registry) : Operation → Option Error × Registry
  | .add name v => r.orUnchanged ((r.add name v).map Prod.snd)
  | .addIn name scope v => r.orUnchanged ((r.addIn name scope v).map Prod.snd)
  | .assign assignment => r.orUnchanged ((r.assign assignment).map Prod.snd)
  | .addMarkup text => (r.addMarkup text).map errorOf id
  | .addMarkupIn text scope => (r.addMarkupIn text scope).map errorOf id
  | .addAllMarkup text => (r.addAllMarkup text).map errorOf id
  | .setAttribute name key text => r.orUnchanged (r.setAttribute name key text)
  | .pushNamespace scope => r.orUnchanged (r.pushNamespace scope)
  | .popNamespace => (none, r.popNamespace)
  | .saveState => (none, r.saveState)
  | .restoreState => r.orUnchanged r.restoreState

/-- The registry after operations. -/
def after (r : Registry) (ops : List Operation) : Registry :=
  ops.foldl (fun r op => (r.perform op).2) r

@[simp] theorem after_nil (r : Registry) : r.after [] = r := rfl

@[simp] theorem after_cons (r : Registry) (op : Operation) (ops : List Operation) :
    r.after (op :: ops) = (r.perform op).2.after ops := rfl

theorem after_append (r : Registry) (ops more : List Operation) :
    r.after (ops ++ more) = (r.after ops).after more :=
  List.foldl_append

/-- A registry as it may be found. -/
inductive Reachable : Registry → Prop
  | empty (name : String) : Reachable (.empty name)
  | ofMarkup {name text : String} {r : Registry} (h : ofMarkup name text = .ok r) : Reachable r
  | perform {r : Registry} (h : Reachable r) (op : Operation) : Reachable (r.perform op).2

/-- Operations lead from one to another. -/
theorem Reachable.after {r : Registry} (h : Reachable r) (ops : List Operation) :
    Reachable (r.after ops) := by
  induction ops generalizing r with
  | nil => exact h
  | cons op ops ih => exact ih (h.perform op)

end Lockstep.Registry
