import DataContract.Fields

/-!
# TOML values and tables

The values of a TOML document, and how its tables come together. A table is written in one place: a
second header for it, or a dotted key that reaches into it from elsewhere, is an error. What only
stands in the path of a header may still get a header of its own, and what only stands in the path
of a dotted key may get more dotted keys from the same place.
-/

namespace DataContract

/-- A TOML value. Floats and moments, which are dates and times, are kept as written. -/
inductive Toml where
  | string (text : String)
  | integer (value : Int)
  | float (text : String)
  | boolean (value : Bool)
  | moment (text : String)
  | array (items : List Toml)
  | table (members : List (String × Toml))

namespace Toml

instance : Inhabited Toml := ⟨.boolean false⟩

/-- How a table has been mentioned. -/
inductive Mention where
  /-- In its own header or braces. -/
  | own
  /-- Only in the path of a header. -/
  | path
  /-- Only in the path of a dotted key. -/
  | dotted
deriving DecidableEq, Repr

/-- What stands under a key while a document is read. -/
inductive Node where
  | value (v : Toml)
  | table (mention : Mention) (members : List (String × Node))
  | tables (items : List (List (String × Node)))

/-- The members of a table while a document is read. -/
abbrev Table := Fields Node

mutual

/-- The finished value. -/
def Node.toToml : Node → Toml
  | .value v => v
  | .table _ members => .table (Table.finish members)
  | .tables items => .array (Table.finishAll items)

/-- The finished members of a table. -/
def Table.finish : List (String × Node) → List (String × Toml)
  | [] => []
  | (name, node) :: rest => (name, node.toToml) :: Table.finish rest

/-- The finished elements of an array of tables. -/
def Table.finishAll : List (List (String × Node)) → List Toml
  | [] => []
  | members :: rest => .table (Table.finish members) :: Table.finishAll rest

end

namespace Table

/-- Applies `f` to the table at the end of a path of keys. Tables that are not there are mentioned
by `step`; a dotted step does not enter a table with a header of its own, and every step enters the
last of an array of tables. -/
def alter (step : Mention) (f : Mention → Table → Option Table) :
    List String → Mention → Table → Option Table
  | [], mention, members => f mention members
  | name :: path, _, members =>
    match members.get? name with
    | none =>
      (alter step f path step []).map fun inner => members.set name (.table step inner)
    | some (.value _) => none
    | some (.table mention inner) =>
      if step = .dotted && mention = .own then none
      else (alter step f path mention inner).map fun inner =>
        members.set name (.table mention inner)
    | some (.tables items) =>
      match items.getLast? with
      | none => none
      | some last =>
        (alter step f path .own last).map fun last =>
          members.set name (.tables (items.dropLast ++ [last]))

/-- Puts a value under a key that is free. -/
def insert? (name : String) (v : Toml) (members : Table) : Option Table :=
  if members.has name then none else some (members.set name (.value v))

/-- Puts a value under a dotted key. The tables on its way belong to dotted keys alone. -/
def insertDotted? (key : List String) (v : Toml) (members : Table) : Option Table :=
  let way := key.dropLast
  match key.getLast? with
  | none => none
  | some name =>
    alter .dotted
      (fun mention members =>
        if !way.isEmpty && mention ≠ .dotted then none else insert? name v members)
      way .own members

/-- Puts several values under their dotted keys, in order. -/
def insertAll? (members : Table) (entries : List (List String × Toml)) : Option Table :=
  entries.foldlM (fun members (key, v) => insertDotted? key v members) members

/-- The value of a table in braces with these entries. -/
def inline? (entries : List (List String × Toml)) : Option Toml :=
  (insertAll? [] entries).map fun members => .table (finish members)

end Table

/-- The part of a document behind one header; the first part, without a header, has no path. -/
structure Part where
  path : List String
  /-- The header adds a table to an array of tables. -/
  appends : Bool
  entries : List (List String × Toml)

namespace Part

/-- Adds the table of a part under its last name. -/
def place (part : Part) (name : String) (members : Table) : Option Table :=
  if part.appends then
    match members.get? name with
    | none => do return members.set name (.tables [← Table.insertAll? [] part.entries])
    | some (.tables items) => do
      return members.set name (.tables (items ++ [← Table.insertAll? [] part.entries]))
    | some _ => none
  else
    match members.get? name with
    | none => do return members.set name (.table .own (← Table.insertAll? [] part.entries))
    | some (.table .path inner) => do
      return members.set name (.table .own (← Table.insertAll? inner part.entries))
    | some _ => none

/-- Adds a part to the tables of the parts before it. -/
def addTo (members : Table) (part : Part) : Option Table :=
  match part.path.getLast? with
  | none => members.insertAll? part.entries
  | some name => Table.alter .path (fun _ members => part.place name members)
      part.path.dropLast .own members

end Part

/-- The members of the document with these parts. -/
def ofParts? (parts : List Part) : Option (List (String × Toml)) :=
  (parts.foldlM Part.addTo []).map Table.finish

end Toml

end DataContract
