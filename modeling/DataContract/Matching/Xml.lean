import DataContract.Matching.Structure

/-!
# Matching XML

An element pattern accepts nodes of its name. Attributes must be declared, except for namespace
declarations, and readable as their patterns. Text content must be readable. Element children are
taken in order: each child pattern takes the nodes of its name that come next, as many as its
occurrence admits, and what no pattern takes is unexpected. Text between element children is
ignored. A node with blank content is accepted whatever the children if the element may be nil.
-/

namespace DataContract

namespace Engine

/-- The value is blank text. -/
def isBlankText : Value → Bool
  | .string s => Text.isAllBlank s
  | _ => false

/-- The breadcrumb of an attribute. -/
def attributeCrumb (name : String) : String :=
  "@" ++ name

/-- An attribute that no pattern has to declare: a namespace declaration. -/
def isNamespaceAttribute (name : String) : Bool :=
  (Text.stripStart? "xmlns".toList name.toList).isSome

/-- The result for a declared attribute. -/
def checkAttribute (e : Engine) (key : String) (p : Pattern) (attributes : List (String × String))
    (r : Resolver) : Option MatchResult :=
  let name := Key.base key
  let result : Option MatchResult :=
    match Fields.get? attributes name with
    | some text => (e.reads p text r).map fun ok =>
        if ok then .success else .mismatch p.typeName ("\"" ++ text ++ "\"")
    | none =>
      if Key.isOptional key then some .success
      else some (.fail (r.messages.missing name))
  result.map (·.under (attributeCrumb name))

/-- The attributes of a node are declared and can be read. -/
def checkAttributes (e : Engine) (shape : XmlShape Pattern) (attributes : List (String × String))
    (r : Resolver) : Option MatchResult := do
  let unexpected := ((attributes.map (·.1)).filter fun name =>
    !isNamespaceAttribute name && (Pattern.keyNamed? shape.attributes name).isNone).map fun name =>
      (MatchResult.fail (r.messages.unexpected name)).under (attributeCrumb name)
  let declared ← traverse? (fun (key, p) => e.checkAttribute key p attributes r) shape.attributes
  return .all (unexpected ++ declared)

/-- An XML node without its wrapping. -/
structure XmlNode where
  name : String
  attributes : List (String × String)
  children : List Value

/-- The node as a value. -/
def XmlNode.toValue (node : XmlNode) : Value :=
  .xml node.name node.attributes node.children

/-- The nodes among the children of a node. -/
def elementsOf (children : List Value) : List XmlNode :=
  children.filterMap fun
    | .xml name attributes children => some ⟨name, attributes, children⟩
    | _ => none

/-- The nodes that a child pattern of the given name and occurrence takes from the front, and the
others. -/
def takeRun (name : String) (occurrence : Occurrence) (nodes : List XmlNode) :
    List XmlNode × List XmlNode :=
  match occurrence with
  | .multiple => nodes.span (·.name = name)
  | _ =>
    match nodes with
    | [] => ([], [])
    | node :: rest => if node.name = name then ([node], rest) else ([], node :: rest)

/-- Matches nodes against child patterns in order: the results and the nodes left over. -/
def checkChildren (e : Engine) (r : Resolver) :
    List Pattern → List XmlNode → Option (List MatchResult × List XmlNode)
  | [], nodes => some ([], nodes)
  | .anything :: patterns, _ => checkChildren e r patterns []
  | .xml shape :: patterns, nodes => do
    let (run, nodes) := takeRun shape.name shape.occurrence nodes
    let taken ← traverse?
      (fun node => (e.check (.xml shape) node.toValue r).map (·.under shape.name)) run
    let absent :=
      if run.isEmpty && shape.occurrence = .once then
        [(MatchResult.fail (r.messages.missing shape.name)).under shape.name]
      else []
    let (later, nodes) ← checkChildren e r patterns nodes
    return (taken ++ absent ++ later, nodes)
  | p :: patterns, nodes => do
    let (later, nodes) ← checkChildren e r patterns nodes
    return (.fail s!"{p.typeName} cannot appear among element children" :: later, nodes)

/-- The content of a node fits the children of an element. -/
def checkContent (e : Engine) (shape : XmlShape Pattern) (children : List Value) (r : Resolver) :
    Option MatchResult :=
  match Pattern.textPattern? shape.children with
  | some p =>
    let text := Value.textContent children
    (e.reads p (Text.trim text) r).map fun ok =>
      if ok then .success else .mismatch p.typeName ("\"" ++ text ++ "\"")
  | none => do
    let (results, left) ← checkChildren e r shape.children (elementsOf children)
    let unexpected := left.map fun node =>
      (MatchResult.fail (r.messages.unexpected node.name)).under node.name
    return .all (results ++ unexpected)

/-- An element pattern accepts the nodes of its name with fitting attributes and content. -/
def checkXml (e : Engine) (shape : XmlShape Pattern) (v : Value) (r : Resolver) :
    Option MatchResult :=
  match v with
  | .xml name attributes children =>
    if name ≠ shape.name then
      some (.fail s!"Expected node named {shape.name}, actual was {name}")
    else
      match shape.effective r with
      | .unfinished => none
      | .error err => some (.fail err.message)
      | .ok shape => do
        let ofAttributes ← e.checkAttributes shape attributes r
        if shape.nillable && children.all isBlankText then return ofAttributes
        else return .all [ofAttributes, ← e.checkContent shape children r]
  | v => some (.mismatch (Pattern.xml shape).typeName v.display)

end Engine

end DataContract
