import DataContract.Name
import DataContract.Scalar.Basic
import DataContract.Value.Text

/-!
# Patterns

A pattern describes the values that a contract admits at one place. Patterns are trees; a reference
stands for the pattern registered under its name, which makes types recursive.

An enumeration is kept as its literals. It is used as the union of its members: the exact literals
and, if it is nullable, null. Objects written as JSON shapes and objects written as tables of tokens
have the same meaning; the layout is kept because variants of a pattern keep it.
-/

namespace DataContract

/-- How often an XML element appears at its place. -/
inductive Occurrence where
  | once
  | optional
  | multiple
deriving DecidableEq, Repr

namespace Occurrence

/-- The name in messages. -/
def name : Occurrence → String
  | .once => "Once"
  | .optional => "Optional"
  | .multiple => "Multiple"

/-- Some number of elements that the first admits is not admitted by the second. -/
def exceeds : Occurrence → Occurrence → Bool
  | .optional, .once => true
  | .multiple, .once => true
  | .multiple, .optional => true
  | _, _ => false

end Occurrence

/-- How an object pattern was written. -/
inductive Layout where
  | json
  | tabular
deriving DecidableEq, Repr

/-- An XML element over patterns of type `π`: attributes, and children that are either elements in
order or one pattern for the text. -/
structure XmlShape (π : Type) where
  name : String
  attributes : List (String × π)
  children : List π
  occurrence : Occurrence
  nillable : Bool
  /-- The name of the type whose attributes and children the element has. -/
  typeRef : Option String

/-- A closed set of literals, perhaps with null. -/
structure Enumeration where
  literals : List Value
  nullable : Bool
  title : Option String
  /-- The text of the one value that is generated. -/
  inlineExample : Option String

/-- A description of the values that a contract admits. -/
inductive Pattern where
  | scalar (kind : Scalar)
  /-- Every value. -/
  | anything
  /-- Objects with the declared keys. -/
  | object (layout : Layout) (keys : List (String × Pattern)) (title : Option String)
  /-- Arrays with one element for each pattern; a repetition at the end admits any number. -/
  | array (elements : List Pattern)
  /-- Arrays of any number of elements. -/
  | list (element : Pattern) (title : Option String) (minItems : Nat)
  /-- The tail of an array; alone it is like a list. -/
  | rest (element : Pattern) (minItems : Nat)
  /-- Objects with any keys of one pattern and values of another. -/
  | dictionary (key value : Pattern)
  | xml (shape : XmlShape Pattern)
  /-- Values of any member. -/
  | union (members : List Pattern) (title inlineExample : Option String)
  | enumeration (shape : Enumeration)
  /-- One value. -/
  | exact (value : Value)
  /-- The pattern registered under a name. -/
  | reference (name : String)
  /-- A value that examples give under their own key. -/
  | lookup (key : String) (type : Pattern)
  /-- Strings that can be read as the type. -/
  | inString (type : Pattern)
  /-- Strings of items with commas between them. -/
  | csv (item : Pattern)

namespace Pattern

instance : Inhabited Pattern := ⟨.anything⟩

/-! ## Constructors -/

/-- Null. -/
def null : Pattern := .scalar .null

/-- All numbers. -/
def number : Pattern := .scalar (.number .any)

/-- All strings. -/
def string : Pattern := .scalar (.string .any)

/-- Both booleans. -/
def boolean : Pattern := .scalar .boolean

/-- A reference to a name in any form. -/
def named (name : String) : Pattern :=
  .reference (Name.delimited name)

/-- Null or a value of the pattern. -/
def nullable (p : Pattern) : Pattern :=
  .union [null, p] none none

/-- Arrays of any number of values of the pattern. -/
def listOf (p : Pattern) : Pattern :=
  .list p none 0

/-- Any number of trailing values of the pattern. -/
def restOf (p : Pattern) : Pattern :=
  .rest p 0

/-- The pattern is null. -/
def isNull : Pattern → Bool
  | .scalar .null => true
  | _ => false

/-- The pattern is one exact value. -/
def isExact : Pattern → Bool
  | .exact _ => true
  | _ => false

end Pattern

namespace Enumeration

/-- The enumeration of the values that are not null; an error without any or with several kinds. -/
def ofValues (values : List Value) (nullable : Bool) : Except ContractError Enumeration :=
  let literals := values.filter (!·.isNull)
  if literals.isEmpty then .error .emptyEnum
  else
    let families := [Family.boolean, .null, .number, .string, .structured].filter fun f =>
      literals.any fun v => Family.ofValue v = f
    if families.length > 1 || families.contains .structured then
      .error (.mixedEnumTypes (", ".intercalate (families.map Family.name)))
    else .ok ⟨literals, nullable, none, none⟩

/-- The patterns of the literals and, if it is nullable, null. -/
def members (e : Enumeration) : List Pattern :=
  e.literals.map Pattern.exact ++ if e.nullable then [Pattern.null] else []

/-- What the literals travel as. -/
def family (e : Enumeration) : Family :=
  match e.literals with
  | [] => .null
  | v :: _ => Family.ofValue v

/-- The name of the type in messages. -/
def typeName (e : Enumeration) : String :=
  match e.title with
  | some title => title
  | none =>
    "enum(" ++ ", ".intercalate (e.literals.map Value.display) ++
      (if e.nullable then ")?" else ")")

end Enumeration

namespace Pattern

/-- The members of a union or an enumeration; any other pattern alone. -/
def unionMembers : Pattern → List Pattern
  | .union members _ _ => members
  | .enumeration e => e.members
  | p => [p]

/-- The members include null. -/
def hasNull (members : List Pattern) : Bool :=
  members.any isNull

/-- The members other than null. -/
def nonNull (members : List Pattern) : List Pattern :=
  members.filter (!·.isNull)

/-- There are members besides null and all of them are exact. -/
def allExact (members : List Pattern) : Bool :=
  !(nonNull members).isEmpty && (nonNull members).all isExact

/-! ## Type names -/

mutual

/-- The name of the type in messages. -/
def typeName : Pattern → String
  | .scalar s => s.typeName
  | .anything => "anything"
  | .object _ _ (some title) => Name.bare title
  | .object _ _ none => "json object"
  | .array _ => "json array"
  | .list _ (some title) _ => title
  | .list element none _ => "list of " ++ typeName element
  | .rest element _ => typeName element ++ "..."
  | .dictionary key value => "dictionary of " ++ typeName key ++ " to " ++ typeName value
  | .xml shape => "<" ++ shape.name ++ ">"
  | .union members title _ =>
    match members.length == 2 && hasNull members, firstNonNull? members, title with
    | true, some name, _ => name ++ "?"
    | _, _, some title => title
    | _, _, none => " or ".intercalate (typeNames members)
  | .enumeration e => e.typeName
  | .exact v => v.display
  | .reference name => Name.bare name
  | .lookup _ type => typeName type
  | .inString type => typeName type ++ " in string"
  | .csv item => "csv of " ++ typeName item

/-- The type names of several patterns. -/
def typeNames : List Pattern → List String
  | [] => []
  | p :: ps => typeName p :: typeNames ps

/-- The type name of the first pattern that is not null. -/
def firstNonNull? : List Pattern → Option String
  | [] => none
  | p :: ps => if p.isNull then firstNonNull? ps else some (typeName p)

end

/-- The breadcrumb that names the member of a union that a failure came from. -/
def branchCrumb : Pattern → String
  | .reference name => "(when " ++ Name.bare name ++ " object)"
  | .object _ _ (some title) => "(when " ++ Name.bare title ++ " object)"
  | p => "(when " ++ p.typeName ++ ")"

/-! ## References -/

mutual

/-- The names that a pattern refers to, in the order of the tree. -/
def references : Pattern → List String
  | .object _ keys _ => referencesOfFields keys
  | .array elements => referencesOfAll elements
  | .list element _ _ => references element
  | .rest element _ => references element
  | .dictionary key value => references key ++ references value
  | .xml ⟨_, attributes, children, _, _, typeRef⟩ =>
    typeRef.toList ++ referencesOfFields attributes ++ referencesOfAll children
  | .union members _ _ => referencesOfAll members
  | .reference name => [name]
  | .lookup _ type => references type
  | .inString type => references type
  | .csv item => references item
  | .scalar _ => []
  | .anything => []
  | .enumeration _ => []
  | .exact _ => []

/-- The names that several patterns refer to. -/
def referencesOfAll : List Pattern → List String
  | [] => []
  | p :: ps => references p ++ referencesOfAll ps

/-- The names that the patterns under several keys refer to. -/
def referencesOfFields : List (String × Pattern) → List String
  | [] => []
  | (_, p) :: ps => references p ++ referencesOfFields ps

end

/-! ## Equality -/

mutual

/-- The patterns are the same. -/
def equal : Pattern → Pattern → Bool
  | .scalar a, .scalar b => a.equal b
  | .anything, .anything => true
  | .object l as a, .object m bs b => l == m && equalFields as bs && a == b
  | .array as, .array bs => equalAll as bs
  | .list p a n, .list q b m => equal p q && a == b && n == m
  | .rest p n, .rest q m => equal p q && n == m
  | .dictionary k v, .dictionary l w => equal k l && equal v w
  | .xml ⟨n, as, cs, o, i, t⟩, .xml ⟨m, bs, ds, p, j, u⟩ =>
    n == m && equalFields as bs && equalAll cs ds && o == p && i == j && t == u
  | .union as a e, .union bs b f => equalAll as bs && a == b && e == f
  | .enumeration a, .enumeration b =>
    Value.equalItems a.literals b.literals && a.nullable == b.nullable && a.title == b.title &&
      a.inlineExample == b.inlineExample
  | .exact v, .exact w => v.equal w
  | .reference a, .reference b => a == b
  | .lookup k p, .lookup l q => k == l && equal p q
  | .inString p, .inString q => equal p q
  | .csv p, .csv q => equal p q
  | _, _ => false

/-- The patterns at the same places are the same. -/
def equalAll : List Pattern → List Pattern → Bool
  | [], [] => true
  | a :: as, b :: bs => equal a b && equalAll as bs
  | _, _ => false

/-- The keys and the patterns under them are the same. -/
def equalFields : List (String × Pattern) → List (String × Pattern) → Bool
  | [], [] => true
  | (k, a) :: as, (l, b) :: bs => k == l && equal a b && equalFields as bs
  | _, _ => false

end

instance : BEq Pattern := ⟨equal⟩

/-! ## Weight -/

mutual

/-- A bound on the number of places in a pattern and on the values in it. -/
def weight : Pattern → Nat
  | .scalar _ => 1
  | .anything => 1
  | .object _ keys _ => 1 + weightOfFields keys
  | .array elements => 1 + weightOfAll elements
  | .list element _ _ => 1 + weight element
  | .rest element _ => 1 + weight element
  | .dictionary key value => 1 + weight key + weight value
  | .xml ⟨_, attributes, children, _, _, _⟩ =>
    1 + weightOfFields attributes + weightOfAll children
  | .union members _ text => 1 + (text.getD "").length + weightOfAll members
  | .enumeration e =>
    2 + (e.inlineExample.getD "").length + (e.literals.map fun v => 1 + v.weight).sum
  | .exact v => 1 + v.weight
  | .reference _ => 1
  | .lookup _ type => 1 + weight type
  | .inString type => 1 + weight type
  | .csv item => 1 + weight item

/-- The weights of several patterns, added up. -/
def weightOfAll : List Pattern → Nat
  | [] => 0
  | p :: ps => weight p + weightOfAll ps

/-- The weights of the patterns under several keys, added up. -/
def weightOfFields : List (String × Pattern) → Nat
  | [] => 0
  | (k, p) :: ps => k.length + weight p + weightOfFields ps

end

end Pattern

end DataContract
