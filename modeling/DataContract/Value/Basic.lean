import DataContract.Decimal.Basic
import DataContract.Fields

/-!
# Values

The data that patterns accept and generate: JSON data with decimal numbers, and XML nodes. Equality
of values is equality of data: numbers are compared as numbers, so `1.0` and `1` are the same value
although they are printed differently. The order of values is by kind first, then by content, and
two values are equal exactly when neither comes first.
-/

namespace DataContract

/-- A datum: a scalar, an object, an array or an XML node. -/
inductive Value where
  | null
  | boolean (value : Bool)
  | number (value : Decimal)
  | string (value : String)
  | object (members : List (String × Value))
  | array (items : List Value)
  | xml (name : String) (attributes : List (String × String)) (children : List Value)

namespace Value

instance : Inhabited Value := ⟨.null⟩

/-- The name of the kind of a value, as messages give it. -/
def kindName : Value → String
  | .null => "null"
  | .boolean _ => "boolean"
  | .number _ => "number"
  | .string _ => "string"
  | .object _ => "json object"
  | .array _ => "json array"
  | .xml .. => "xml node"

/-- The value is null. -/
def isNull : Value → Bool
  | .null => true
  | _ => false

/-! ## Equality -/

mutual

/-- The values are the same data. -/
def equal : Value → Value → Bool
  | .null, .null => true
  | .boolean a, .boolean b => a == b
  | .number a, .number b => a.equal b
  | .string a, .string b => a == b
  | .object as, .object bs => equalMembers as bs
  | .array as, .array bs => equalItems as bs
  | .xml n as cs, .xml m bs ds => n == m && as == bs && equalItems cs ds
  | _, _ => false

/-- The lists hold the same data in the same places. -/
def equalItems : List Value → List Value → Bool
  | [], [] => true
  | a :: as, b :: bs => equal a b && equalItems as bs
  | _, _ => false

/-- The members have the same keys and the same data. -/
def equalMembers : List (String × Value) → List (String × Value) → Bool
  | [], [] => true
  | (k, a) :: as, (l, b) :: bs => k == l && equal a b && equalMembers as bs
  | _, _ => false

end

instance : BEq Value := ⟨equal⟩

mutual

@[simp] theorem equal_self : ∀ v : Value, v.equal v = true
  | .null => rfl
  | .boolean b => by simp [equal]
  | .number d => by simp [equal]
  | .string s => by simp [equal]
  | .object ms => by simp [equal, equalMembers_self ms]
  | .array vs => by simp [equal, equalItems_self vs]
  | .xml n as cs => by simp [equal, equalItems_self cs]

/-- Items are equal to themselves, one by one. -/
theorem equalItems_self : ∀ vs : List Value, equalItems vs vs = true
  | [] => rfl
  | v :: vs => by simp [equalItems, equal_self v, equalItems_self vs]

/-- Members are equal to themselves, key by key. -/
theorem equalMembers_self : ∀ ms : List (String × Value), equalMembers ms ms = true
  | [] => rfl
  | (k, v) :: ms => by simp [equalMembers, equal_self v, equalMembers_self ms]

end

/-! ## Order -/

/-- The place of a kind in the order of kinds. -/
def kindRank : Value → Nat
  | .null => 0
  | .boolean _ => 1
  | .number _ => 2
  | .string _ => 3
  | .object _ => 4
  | .array _ => 5
  | .xml .. => 6

/-- Compares attributes: the first difference in a key or a text decides, then the number. -/
def compareAttributes : List (String × String) → List (String × String) → Ordering
  | [], [] => .eq
  | [], _ :: _ => .lt
  | _ :: _, [] => .gt
  | (k, a) :: as, (l, b) :: bs =>
    (Ord.compare k l).then ((Ord.compare a b).then (compareAttributes as bs))

mutual

/-- Compares by kind, then by content. -/
def compare : Value → Value → Ordering
  | .boolean a, .boolean b => Ord.compare a b
  | .number a, .number b => a.compare b
  | .string a, .string b => Ord.compare a b
  | .object as, .object bs => compareMembers as bs
  | .array as, .array bs => compareItems as bs
  | .xml n as cs, .xml m bs ds =>
    (Ord.compare n m).then ((compareAttributes as bs).then (compareItems cs ds))
  | a, b => Ord.compare a.kindRank b.kindRank

/-- Compares item by item; a list that ends first comes first. -/
def compareItems : List Value → List Value → Ordering
  | [], [] => .eq
  | [], _ :: _ => .lt
  | _ :: _, [] => .gt
  | a :: as, b :: bs => (compare a b).then (compareItems as bs)

/-- Compares member by member, the key before the value. -/
def compareMembers : List (String × Value) → List (String × Value) → Ordering
  | [], [] => .eq
  | [], _ :: _ => .lt
  | _ :: _, [] => .gt
  | (k, a) :: as, (l, b) :: bs =>
    (Ord.compare k l).then ((compare a b).then (compareMembers as bs))

end

/-- The values in ascending order, equal ones in the order given, and of equal neighbours only the
first. -/
def sorted (values : List Value) : List Value :=
  (values.mergeSort fun a b => (a.compare b).isLE).eraseReps

/-! ## Content -/

/-- The text among the children of an XML node, joined. -/
def textContent (children : List Value) : String :=
  String.join (children.filterMap fun
    | .string s => some s
    | _ => none)

mutual

/-- A bound on the depth and the length of everything in a value. -/
def weight : Value → Nat
  | .null => 1
  | .boolean _ => 1
  | .number _ => 1
  | .string s => 1 + s.length
  | .object ms => 1 + weightMembers ms
  | .array vs => 1 + weightItems vs
  | .xml n as cs =>
    1 + n.length + (as.map fun a => a.1.length + a.2.length).sum + weightItems cs

/-- The weights of the items, added up. -/
def weightItems : List Value → Nat
  | [] => 0
  | v :: vs => weight v + weightItems vs

/-- The weights of the members and their keys, added up. -/
def weightMembers : List (String × Value) → Nat
  | [] => 0
  | (k, v) :: ms => k.length + weight v + weightMembers ms

end

end Value

end DataContract
