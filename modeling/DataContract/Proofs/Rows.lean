import DataContract.Fields
import DataContract.Row
import DataContract.Text.Split

/-!
# Cells of nested examples

What a text in a cell stands for is decided by the variables and the references of its row
(`Row.StandsFor`, `Row.resolveCell_eq_iff`). The row of nested data is reached by stepping down key
by key, and every step keeps the variables and leaves the references behind. So a text at the end of
a path stands for the same as in the row that the path starts from, unless it refers to a value of
one of these references (`Row.cell_descend_iff`): such a text is an error at every level but the
first (`Row.nestedReference_unresolved`).
-/

namespace DataContract

/-- What a path of keys leads to in a value, through objects. -/
def Value.at? : Value → List String → Option Value
  | v, [] => some v
  | .object members, key :: path => (Fields.get? members key).bind (at? · path)
  | _, _ :: _ => none

/-- Only from an object a path leads to an object. -/
theorem Value.exists_object_of_at? {json : Value} {path : List String}
    {members : List (String × Value)} (h : json.at? path = some (.object members)) :
    ∃ outer, json = .object outer := by
  cases path with
  | nil => exact ⟨members, Option.some.inj h⟩
  | cons key path =>
    cases json with
    | object outer => exact ⟨outer, rfl⟩
    | _ => cases h

namespace Row

/-! ## What a cell stands for -/

/-- What a text in a cell stands for under variables and references: itself if it has no dollar sign
in front, else the value of the variable or, with a dot, of the reference, which may be missing. -/
inductive StandsFor (bindings : List (String × String))
    (references : List (String × List (String × String))) :
    String → Except ContractError String → Prop where
  | itself {text : String} (plain : text.toList.head? ≠ some '$') :
    StandsFor bindings references text (.ok text)
  | binding {name value : String} (dotless : '.' ∉ name.toList)
    (found : Fields.get? bindings name = some value) :
    StandsFor bindings references ("$" ++ name) (.ok value)
  | unbound {name : String} (dotless : '.' ∉ name.toList)
    (missing : Fields.get? bindings name = none) :
    StandsFor bindings references ("$" ++ name)
      (.error (.row s!"variable {name} is not defined"))
  | referenced {source key value : String} (dotless : '.' ∉ source.toList)
    (found : (Fields.get? references source).bind (Fields.get? · key) = some value) :
    StandsFor bindings references ("$" ++ source ++ "." ++ key) (.ok value)
  | unreferenced {source key : String} (dotless : '.' ∉ source.toList)
    (missing : (Fields.get? references source).bind (Fields.get? · key) = none) :
    StandsFor bindings references ("$" ++ source ++ "." ++ key)
      (.error (.row s!"reference {source} has no value for {key}"))

/-- The text refers to a value that there is among the references. -/
def RefersToValue (references : List (String × List (String × String))) (text : String) : Prop :=
  ∃ source key value, '.' ∉ source.toList ∧ text = "$" ++ source ++ "." ++ key ∧
    (Fields.get? references source).bind (Fields.get? · key) = some value

variable {row : Row} {text : String} {x : Except ContractError String}

/-- A text without a dot is passed over whole when looking for one. -/
theorem forall_ne_dot {cs : List Char} (h : '.' ∉ cs) : ∀ c ∈ cs, decide (c = '.') = false := by
  intro c hc
  refine decide_eq_false ?_
  rintro rfl
  exact h hc

/-- A cell naming a variable stands for its value, and fails where it is not defined. -/
theorem resolveCell_variable {name : String} (h : '.' ∉ name.toList) :
    row.resolveCell ("$" ++ name) = match Fields.get? row.bindings name with
      | some value => .ok value
      | none => .error (.row s!"variable {name} is not defined") := by
  have hlist : ("$" ++ name).toList = '$' :: name.toList := String.toList_append
  have hcut : Text.splitOnce (· = '.') name.toList = none :=
    Text.splitOnce_eq_none_iff.2 (forall_ne_dot h)
  cases hvalue : Fields.get? row.bindings name <;> simp [resolveCell, hlist, hcut, hvalue]

/-- A cell naming a key of a reference stands for its value there, and fails where there is none. -/
theorem resolveCell_reference {source key : String} (h : '.' ∉ source.toList) :
    row.resolveCell ("$" ++ source ++ "." ++ key) =
      match (Fields.get? row.references source).bind (Fields.get? · key) with
      | some value => .ok value
      | none => .error (.row s!"reference {source} has no value for {key}") := by
  have hlist : ("$" ++ source ++ "." ++ key).toList =
      '$' :: (source.toList ++ '.' :: key.toList) := by
    simp [String.toList_append]
  have hcut : Text.splitOnce (· = '.') (source.toList ++ '.' :: key.toList) =
      some (source.toList, key.toList) :=
    Text.splitOnce_append (forall_ne_dot h) rfl _
  cases hvalue : (Fields.get? row.references source).bind (Fields.get? · key) <;>
    simp [resolveCell, hlist, hcut, hvalue]

/-- What a text stands for is what the row resolves it to. -/
theorem resolveCell_of_standsFor (h : StandsFor row.bindings row.references text x) :
    row.resolveCell text = x := by
  cases h with
  | itself plain =>
    unfold resolveCell
    split
    · next hlist => exact absurd (by rw [hlist]; rfl) plain
    · rfl
  | binding dotless found => rw [resolveCell_variable dotless, found]
  | unbound dotless missing => rw [resolveCell_variable dotless, missing]
  | referenced dotless found => rw [resolveCell_reference dotless, found]
  | unreferenced dotless missing => rw [resolveCell_reference dotless, missing]

/-- A text is plain, or it names a variable, or a key of a reference. -/
theorem cases_text (text : String) : text.toList.head? ≠ some '$' ∨
    (∃ name : String, '.' ∉ name.toList ∧ text = "$" ++ name) ∨
      ∃ source key : String, '.' ∉ source.toList ∧ text = "$" ++ source ++ "." ++ key := by
  by_cases hdollar : text.toList.head? = some '$'
  · refine .inr ?_
    obtain ⟨rest, hrest⟩ : ∃ rest, text.toList = '$' :: rest := by
      cases hlist : text.toList with
      | nil => simp [hlist] at hdollar
      | cons c rest => exact ⟨rest, by simpa [hlist] using hdollar⟩
    cases hcut : Text.splitOnce (· = '.') rest with
    | none =>
      refine .inl ⟨String.ofList rest, fun hdot => ?_, ?_⟩
      · rw [String.toList_ofList] at hdot
        exact of_decide_eq_false (Text.splitOnce_eq_none_iff.1 hcut _ hdot) rfl
      · apply String.toList_injective
        simp [hrest, String.toList_append]
    | some parts =>
      obtain ⟨source, key⟩ := parts
      obtain ⟨c, hc, rfl, hbefore⟩ := Text.splitOnce_eq_some hcut
      obtain rfl := of_decide_eq_true hc
      refine .inr ⟨String.ofList source, String.ofList key, fun hdot => ?_, ?_⟩
      · rw [String.toList_ofList] at hdot
        exact of_decide_eq_false (hbefore _ hdot) rfl
      · apply String.toList_injective
        simp [hrest, String.toList_append]
  · exact .inl hdollar

/-- Every text stands for something. -/
theorem exists_standsFor (bindings : List (String × String))
    (references : List (String × List (String × String))) (text : String) :
    ∃ x, StandsFor bindings references text x := by
  rcases cases_text text with hplain | ⟨name, hdot, rfl⟩ | ⟨source, key, hdot, rfl⟩
  · exact ⟨_, .itself hplain⟩
  · cases h : Fields.get? bindings name with
    | some value => exact ⟨_, .binding hdot h⟩
    | none => exact ⟨_, .unbound hdot h⟩
  · cases h : (Fields.get? references source).bind (Fields.get? · key) with
    | some value => exact ⟨_, .referenced hdot h⟩
    | none => exact ⟨_, .unreferenced hdot h⟩

/-- What a cell resolves to is what it stands for, for every form of cell. -/
theorem resolveCell_eq_iff :
    row.resolveCell text = x ↔ StandsFor row.bindings row.references text x := by
  constructor
  · intro h
    obtain ⟨y, hy⟩ := exists_standsFor row.bindings row.references text
    rwa [← h, resolveCell_of_standsFor hy]
  · exact resolveCell_of_standsFor

/-- A text that refers to no value of the references stands for the same without them. -/
theorem StandsFor.of_nil {bindings : List (String × String)}
    {references : List (String × List (String × String))} (h : StandsFor bindings [] text x)
    (hvalue : ¬ RefersToValue references text) : StandsFor bindings references text x := by
  cases h with
  | itself plain => exact .itself plain
  | binding dotless found => exact .binding dotless found
  | unbound dotless missing => exact .unbound dotless missing
  | referenced dotless found => cases found
  | unreferenced dotless _ =>
    refine .unreferenced dotless (Option.eq_none_iff_forall_ne_some.2 fun value found => ?_)
    exact hvalue ⟨_, _, value, dotless, rfl, found⟩

/-! ## Stepping down -/

/-- The row after a step down for each key of a path. -/
def descend (row : Row) (path : List String) : Row :=
  path.foldl stepDown row

/-- The row has the data of a JSON example; its name, variables and references are any. -/
structure Shows (row : Row) (json : Value) : Prop where
  cells : row.cells = (ofJsonExample json).cells
  jsonExample : row.jsonExample = some json

/-- A row made from an example shows that example. -/
theorem shows_ofJsonExample (json : Value) : (ofJsonExample json).Shows json :=
  ⟨rfl, rfl⟩

variable {json : Value} {members inner : List (String × Value)} {column key : String}
  {path : List String}

/-- Naming a row keeps what it shows. -/
theorem Shows.named (h : row.Shows json) (name : String) : (row.named name).Shows json :=
  ⟨h.cells, h.jsonExample⟩

/-- Defining variables keeps what the row shows. -/
theorem Shows.withVariables (h : row.Shows json) (bindings : List (String × String)) :
    (row.withVariables bindings).Shows json :=
  ⟨h.cells, h.jsonExample⟩

/-- Adding a reference keeps what the row shows. -/
theorem Shows.withReference (h : row.Shows json) (source : String)
    (values : List (String × String)) : (row.withReference source values).Shows json :=
  ⟨h.cells, h.jsonExample⟩

/-- A string of the example is a cell. -/
theorem Shows.cell (h : row.Shows (.object members))
    (htext : Fields.get? members column = some (.string text)) :
    row.cell column = row.resolveCell text := by
  have hfind : row.cells.find? (·.1 = column) = some (column, text) := by
    rw [h.cells]
    show ((members.filter fun m => !isNested m.2).map fun m => (m.1, m.2.literal)).find? _ = _
    clear h
    induction members with
    | nil => cases htext
    | cons m members ih =>
      obtain ⟨name, v⟩ := m
      rw [Fields.get?] at htext
      split at htext
      · next hname =>
        cases htext
        simp [hname, isNested, Value.literal]
      · next hname =>
        rw [List.filter_cons]
        split
        · rw [List.map_cons, List.find?_cons_of_neg (by simpa using hname)]
          exact ih htext
        · exact ih htext
  rw [Row.cell, hfind]

/-- A step down leads to the data of the nested object, keeps the variables and drops the
references. -/
theorem Shows.stepDown (h : row.Shows (.object members))
    (hkey : Fields.get? members key = some (.object inner)) :
    (row.stepDown key).Shows (.object inner) ∧ (row.stepDown key).bindings = row.bindings ∧
      (row.stepDown key).references = [] := by
  have hnested : row.nestedExample? key = some (.object inner) := by
    simp [nestedExample?, member?, h.jsonExample, hkey, isNested]
  rw [Row.stepDown, hnested]
  exact ⟨((shows_ofJsonExample _).withVariables _).named _, rfl, rfl⟩

/-- A path leads to the data at its end, keeps the variables, and drops the references with its
first step. -/
theorem Shows.descend (h : row.Shows json) (hpath : json.at? path = some (.object inner)) :
    (row.descend path).Shows (.object inner) ∧ (row.descend path).bindings = row.bindings ∧
      (row.descend path).references = if path = [] then row.references else [] := by
  induction path generalizing row json with
  | nil =>
    cases hpath
    exact ⟨h, rfl, rfl⟩
  | cons key path ih =>
    obtain ⟨members, rfl⟩ := Value.exists_object_of_at? hpath
    obtain ⟨v, hkey, hrest⟩ := Option.bind_eq_some_iff.1 hpath
    obtain ⟨nested, rfl⟩ := Value.exists_object_of_at? hrest
    obtain ⟨hshows, hbindings, hreferences⟩ := h.stepDown hkey
    obtain ⟨hshows', hbindings', hreferences'⟩ := ih hshows hrest
    refine ⟨hshows', hbindings'.trans hbindings, ?_⟩
    rw [if_neg (List.cons_ne_nil _ _)]
    exact hreferences'.trans (by rw [hreferences, ite_self])

/-- A text at the end of a path stands for what it does under the variables of the row that the path
starts from and, below the first level, without references. That is what it stands for in this row
unless it refers to a value of a reference. -/
theorem cell_descend_iff (hrow : row.Shows json) (hpath : json.at? path = some (.object members))
    (htext : Fields.get? members column = some (.string text)) :
    (∀ x, (row.descend path).cell column = x ↔
        StandsFor row.bindings (if path = [] then row.references else []) text x) ∧
      (StandsFor row.bindings row.references text ((row.descend path).cell column) ↔
        path = [] ∨ ¬ RefersToValue row.references text) := by
  obtain ⟨hshows, hbindings, hreferences⟩ := hrow.descend hpath
  have hcell (x : Except ContractError String) : (row.descend path).cell column = x ↔
      StandsFor row.bindings (if path = [] then row.references else []) text x := by
    rw [hshows.cell htext, resolveCell_eq_iff, hbindings, hreferences]
  refine ⟨hcell, ?_⟩
  have hstands := (hcell _).1 rfl
  by_cases hnil : path = []
  · rw [if_pos hnil] at hstands
    exact iff_of_true hstands (.inl hnil)
  · rw [if_neg hnil] at hstands hcell
    refine ⟨fun hsame => .inr ?_, fun hvalue => hstands.of_nil (hvalue.resolve_left hnil)⟩
    rintro ⟨source, key, value, hdot, rfl, found⟩
    -- here the text is an error, there it is the value
    have herror := (hcell _).2 (.unreferenced hdot rfl)
    have hok := resolveCell_of_standsFor (.referenced hdot found)
    rw [herror, ← resolveCell_eq_iff, hok] at hsame
    cases hsame

/-- A customer whose name and number are known elsewhere. -/
def customer : List (String × Value) :=
  [("name", .string "$customer"), ("number", .string "$auth.id")]

/-- An order of the customer. -/
def order : Value :=
  .object [("id", .number .one), ("order", .object [("customer", .object customer)])]

/-- The row of the order, with the name in a variable and the number in a reference. -/
def orderRow : Row :=
  ((ofJsonExample order).withVariables [("customer", "Jane")]).withReference "auth" [("id", "10")]

/-- The row of the example shows the order it was made from. -/
theorem orderRow_shows : orderRow.Shows order :=
  ((shows_ofJsonExample _).withVariables _).withReference _ _

/-- Two levels down the variable is resolved. -/
theorem nestedVariable_resolved :
    orderRow.Shows order ∧ order.at? ["order", "customer"] = some (.object customer) ∧
      Fields.get? customer "name" = some (.string "$customer") ∧
      (orderRow.descend ["order", "customer"]).cell "name" = .ok "Jane" := by
  have hpath : order.at? ["order", "customer"] = some (.object customer) := rfl
  have hname : Fields.get? customer "name" = some (.string "$customer") := rfl
  have hdotless : '.' ∉ "customer".toList := by decide
  have hbound : Fields.get? orderRow.bindings "customer" = some "Jane" := rfl
  have hstands := @StandsFor.binding _ [] _ _ hdotless hbound
  exact ⟨orderRow_shows, hpath, hname,
    ((cell_descend_iff orderRow_shows hpath hname).1 _).2 hstands⟩

/-- Two levels down the reference is not, although it has a value. -/
theorem nestedReference_unresolved :
    StandsFor orderRow.bindings orderRow.references "$auth.id" (.ok "10") ∧
      (orderRow.descend ["order", "customer"]).cell "number" =
        .error (.row "reference auth has no value for id") ∧
      ¬ StandsFor orderRow.bindings orderRow.references "$auth.id"
        ((orderRow.descend ["order", "customer"]).cell "number") := by
  have hdotless : '.' ∉ "auth".toList := by decide
  have hreferenced : (Fields.get? orderRow.references "auth").bind (Fields.get? · "id") =
      some "10" := rfl
  have hstands : StandsFor orderRow.bindings orderRow.references "$auth.id" (.ok "10") :=
    StandsFor.referenced hdotless hreferenced
  have hcell : (orderRow.descend ["order", "customer"]).cell "number" =
      .error (.row "reference auth has no value for id") := rfl
  refine ⟨hstands, hcell, fun h => ?_⟩
  have hok := (resolveCell_of_standsFor hstands).symm.trans (resolveCell_of_standsFor h)
  rw [hcell] at hok
  cases hok

end Row

end DataContract
