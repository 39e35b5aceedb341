/- Attribute lists: keys with texts, in the order in which the keys were first set.

   Reading finds the first entry of a key. Setting a key that is there replaces its text in place;
   a new key goes to the end, so that the keys before it keep their positions. -/
namespace Lockstep

/-- Keys and their texts. -/
abbrev Attributes := List (String × String)

namespace Attributes

/-- The text of a key. -/
def get? (key : String) : Attributes → Option String
  | [] => none
  | (k, text) :: rest => if k = key then some text else get? key rest

/-- The list with `key` set to `text`. -/
def set (key text : String) : Attributes → Attributes
  | [] => [(key, text)]
  | (k, old) :: rest => if k = key then (k, text) :: rest else (k, old) :: set key text rest

/-- The list with every pair of `pairs` set in turn. -/
def setAll (attributes pairs : Attributes) : Attributes :=
  pairs.foldl (fun held pair => held.set pair.1 pair.2) attributes

@[simp] theorem get?_set_self (key text : String) (attributes : Attributes) :
    get? key (set key text attributes) = some text := by
  induction attributes with
  | nil => simp [set, get?]
  | cons pair rest ih => by_cases h : pair.1 = key <;> simp [set, get?, h, ih]

theorem get?_set_of_ne {key other : String} (h : other ≠ key) (text : String)
    (attributes : Attributes) : get? other (set key text attributes) = get? other attributes := by
  induction attributes with
  | nil => simp [set, get?, h.symm]
  | cons pair rest ih =>
    by_cases hk : pair.1 = key
    · simp [set, get?, hk, h.symm]
    · by_cases ho : pair.1 = other <;> simp_all [set, get?]

/-- Setting a key leaves the keys before it where they are. -/
theorem keys_prefix_keys_set (key text : String) (attributes : Attributes) :
    attributes.map Prod.fst <+: (set key text attributes).map Prod.fst := by
  induction attributes with
  | nil => simp [set]
  | cons pair rest ih =>
    by_cases h : pair.1 = key
    · simp [set, h]
    · simpa [set, h] using ih

end Attributes
end Lockstep
