/-!
# Keyed fields

Objects, records and registries are association lists kept in ascending order of their keys, so
that two of them with the same members are the same list and are printed the same way. The order
is the order of strings by code point, which is also the order of their encoded bytes.

`Fields.set` is the one way to grow such a list: it keeps the order, replaces the value under a key
that is already there, and leaves all other keys alone.
-/

namespace DataContract

/-- Members under their keys, in ascending key order. -/
abbrev Fields (α : Type) := List (String × α)

namespace Fields

variable {α β : Type}

/-- The keys in order. -/
def names (fields : Fields α) : List String :=
  fields.map (·.1)

/-- The values in key order. -/
def values (fields : Fields α) : List α :=
  fields.map (·.2)

/-- Every key is smaller than all later ones. -/
def Ordered (fields : Fields α) : Prop :=
  fields.names.Pairwise (· < ·)

/-- The value under a key. -/
def get? : Fields α → String → Option α
  | [], _ => none
  | (k, v) :: rest, name => if k = name then some v else get? rest name

/-- There is a value under the key. -/
def has (fields : Fields α) (name : String) : Bool :=
  (fields.get? name).isSome

/-- Puts a value under a key, replacing the one that was there. -/
def set : Fields α → String → α → Fields α
  | [], name, value => [(name, value)]
  | (k, v) :: rest, name, value =>
    if k = name then (name, value) :: rest
    else if name < k then (name, value) :: (k, v) :: rest
    else (k, v) :: set rest name value

/-- Takes a key out. -/
def remove : Fields α → String → Fields α
  | [], _ => []
  | (k, v) :: rest, name => if k = name then rest else (k, v) :: remove rest name

/-- Collects pairs in any order; of a repeated key the last value stays. -/
def ofPairs (pairs : List (String × α)) : Fields α :=
  pairs.foldl (fun fields pair => fields.set pair.1 pair.2) []

/-- Applies `f` to every value and leaves the keys. -/
def mapValues (f : α → β) (fields : Fields α) : Fields β :=
  fields.map fun pair => (pair.1, f pair.2)

@[simp] theorem get?_nil (name : String) : get? ([] : Fields α) name = none := rfl

@[simp] theorem get?_set_self (fields : Fields α) (name : String) (value : α) :
    (fields.set name value).get? name = some value := by
  induction fields with
  | nil => simp [set, get?]
  | cons pair rest ih =>
    obtain ⟨k, v⟩ := pair
    by_cases h : k = name
    · simp [set, h, get?]
    · by_cases hlt : name < k <;> simp [set, h, hlt, get?, ih]

/-- Setting a field keeps the value of every other one. -/
theorem get?_set_of_ne (fields : Fields α) {name other : String} (value : α) (h : name ≠ other) :
    (fields.set name value).get? other = fields.get? other := by
  induction fields with
  | nil => simp [set, get?, h]
  | cons pair rest ih =>
    obtain ⟨k, v⟩ := pair
    by_cases hk : k = name
    · subst hk; simp [set, get?, h]
    · by_cases hlt : name < k
      · simp [set, hk, hlt, get?, h]
      · simp [set, hk, hlt, get?, ih]

end Fields

end DataContract
