import DataContract.Proofs.Generation.Structures
import DataContract.Proofs.ObjectKeys
import DataContract.Proofs.Ranges
import DataContract.Proofs.Termination.Budget

/-!
# Patterns of one value

A value is described part by part by its literal pattern (`Pattern.literal`): null by null, an array
by the patterns of its items, an object by those of its members, anything else exactly. Where no key
says more than its name this pattern accepts nothing but the value (`Pattern.accepts_literal_iff`)
and generates it, whatever the choices are (`Pattern.generate_literal`). It has neither names nor
XML elements in it, so matching ends on the computed budget (`Pattern.exists_check_of_local`).
-/

namespace DataContract

/-- The keys of every object in the value are in order, as they always are, and satisfy a
condition. -/
inductive Value.WithKeys (ok : String → Prop) : Value → Prop where
  | null : WithKeys ok .null
  | boolean (b : Bool) : WithKeys ok (.boolean b)
  | number (d : Decimal) : WithKeys ok (.number d)
  | string (s : String) : WithKeys ok (.string s)
  | object {members : List (String × Value)} (ordered : Fields.Ordered members)
      (keys : ∀ name ∈ Fields.names members, ok name) (values : ∀ m ∈ members, WithKeys ok m.2) :
      WithKeys ok (.object members)
  | array {items : List Value} (values : ∀ v ∈ items, WithKeys ok v) : WithKeys ok (.array items)
  | xml (name : String) (attributes : List (String × String)) (children : List Value) :
      WithKeys ok (.xml name attributes children)

/-- A weaker condition on keys holds wherever a stronger one does. -/
theorem Value.WithKeys.imp {ok ok' : String → Prop} {v : Value} (h : v.WithKeys ok)
    (hok : ∀ name, ok name → ok' name) : v.WithKeys ok' := by
  induction h with
  | object hordered hkeys _ ih =>
    exact .object hordered (fun name hn => hok name (hkeys name hn)) ih
  | array _ ih => exact .array ih
  | _ => constructor

namespace Pattern

mutual

/-- The pattern that describes a value part by part. -/
def literal : Value → Pattern
  | .null => .null
  | .array items => .array (literals items)
  | .object members => .object .json (literalFields members) none
  | v => .exact v

/-- The literal patterns of several values. -/
def literals : List Value → List Pattern
  | [] => []
  | v :: vs => literal v :: literals vs

/-- The literal patterns of the members, under the same keys. -/
def literalFields : List (String × Value) → List (String × Pattern)
  | [] => []
  | (key, v) :: ms => (key, literal v) :: literalFields ms

end

variable {p : Pattern} {v w : Value} {r : Resolver} {layout : Layout} {title : Option String}
  {elements : List Pattern} {keys : List (String × Pattern)} {n : Nat}

/-- The literals of a list are those of its items. -/
theorem literals_eq_map (vs : List Value) : literals vs = vs.map literal := by
  induction vs with
  | nil => rfl
  | cons v vs ih => rw [literals, ih, List.map_cons]

/-- The literals of fields keep their names and take the literal of each value. -/
theorem literalFields_eq_map (ms : List (String × Value)) :
    literalFields ms = ms.map fun m => (m.1, literal m.2) := by
  induction ms with
  | nil => rfl
  | cons m ms ih => rw [literalFields, ih, List.map_cons]

/-- Turning fields into literals keeps their names. -/
theorem names_literalFields (ms : List (String × Value)) :
    Fields.names (literalFields ms) = Fields.names ms := by
  rw [literalFields_eq_map, Fields.names, List.map_map]
  rfl

/-- The parts of the literal of an array are the literals of its items. -/
theorem mem_inner_literal_array {items : List Value} :
    p ∈ (literal (.array items)).inner ↔ ∃ v ∈ items, literal v = p := by
  show p ∈ literals items ↔ _
  rw [literals_eq_map, List.mem_map]

/-- The parts of the literal of an object are the literals of its members. -/
theorem mem_inner_literal_object {members : List (String × Value)} :
    p ∈ (literal (.object members)).inner ↔ ∃ m ∈ members, literal m.2 = p := by
  show p ∈ (literalFields members).map (·.2) ↔ _
  rw [literalFields_eq_map, List.map_map, List.mem_map]
  rfl

/-- A literal is never a rest. -/
theorem isRest_literal (v : Value) : (literal v).isRest = false := by
  cases v <;> rfl

/-- The literal of a value with plain keys satisfies what its match relies on, at every depth. -/
theorem local_literal (h : w.WithKeys Key.IsPlain) : (literal w).Throughout Local := by
  induction h with
  | null | boolean | number | string | xml => exact .leaf trivial rfl
  | array _ ih =>
    refine .intro trivial fun q hq => ?_
    obtain ⟨v, hv, rfl⟩ := mem_inner_literal_array.1 hq
    exact ih v hv
  | object _ _ _ ih =>
    refine .intro trivial fun q hq => ?_
    obtain ⟨m, hm, rfl⟩ := mem_inner_literal_object.1 hq
    exact ih m hm

/-- The literal pattern of a value accepts the values that are equal to it. -/
theorem accepts_literal_iff (hl : r.config.mockMode = false) (hw : w.WithKeys Key.IsPlain)
    (hv : v.WithKeys fun _ => True) : (literal w).Accepts v r ↔ w.equal v = true := by
  -- an object pattern finds its keys wherever they stand; that the keys are in order on both sides
  -- makes the same keys the same places, which equality is about
  induction hw generalizing v with
  | null =>
    rw [literal, null, accepts_scalar_iff hl]
    constructor
    · intro hv
      obtain rfl := Scalar.eq_null_of_check hv
      rfl
    · intro hv
      cases Value.same_of_equal hv
      rfl
  | boolean | number | string | xml => exact accepts_exact_iff hl
  | @array items hitems ih =>
    have hlocal := local_literal (.array hitems)
    rw [literal] at hlocal ⊢
    rw [accepts_array_iff hl hlocal (by simp [literals_eq_map, isRest_literal]), literals_eq_map]
    cases hv with
    | @array items' hitems' =>
      have hparts : List.Forall₂ (fun w v => (literal w).Accepts v r) items items' ↔
          List.Forall₂ (fun w v => w.equal v = true) items items' :=
        forall₂_congr_mem fun w hw v hv => ih w hw (hitems' v hv)
      simp [List.forall₂_map_left_iff, hparts, Value.equal, Value.equalItems_iff]
    | _ => simp [Value.equal]
  | @object members hordered hkeys _ ih =>
    rw [literal, accepts_object_iff_fits hl]
    cases hv with
    | @object members' hordered' _ hvalues' =>
      have hparts : List.Forall₂ (fun m n => m.1 = n.1 ∧ (literal m.2).Accepts n.2 r) members
          members' ↔ List.Forall₂ (fun m n => m.1 = n.1 ∧ m.2.equal n.2 = true) members members' :=
        forall₂_congr_mem fun m hm n hn => and_congr_right fun _ => ih m hm (hvalues' n hn)
      have hfits : FitsObject (literalFields members) members' (fun p v => p.Accepts v r) ↔
          List.Forall₂ (fun m n => m.1 = n.1 ∧ (literal m.2).Accepts n.2 r) members members' := by
        rw [fitsObject_iff_forall₂ ?_ ?_ hordered', literalFields_eq_map,
          List.forall₂_map_left_iff]
        · rwa [names_literalFields]
        · rwa [Fields.Ordered, names_literalFields]
      simp [hfits, hparts, Value.equal, Value.equalMembers_iff]
    | _ => simp [Value.equal]

end Pattern

/-! ## Generation -/

namespace Generation

variable {e : Engine} {gen : Generator} {r : Resolver} {p : Pattern} {v : Value} {key : String}

/-- Without facts a mandatory key gets what is generated. -/
theorem member_eq_ok (hf : r.facts = []) (hk : Key.isOptional key = false)
    (h : ∀ c, gen p r c = .ok v) (c : Choices) : member e gen key p r c = .ok (some v) := by
  have hfact : acceptedFact? e (Key.base key) p r = .ok none := by
    rw [acceptedFact?, Resolver.fact?, hf]
    rfl
  rw [member, hfact, Outcome.ok_bind, hk, h]
  rfl

/-- Without facts the values that are generated under mandatory keys and no others are the members
of the object. -/
theorem object_eq_ok {keys : List (String × Pattern)} {members : List (String × Value)}
    (hf : r.facts = []) (hplain : ∀ name ∈ Fields.names keys, Key.IsPlain name)
    (hmembers : Fields.Ordered members)
    (h : List.Forall₂ (fun m n => m.1 = n.1 ∧ ∀ c, gen m.2 r c = .ok n.2) keys members)
    (c : Choices) : object e gen keys r c = .ok (.object members) := by
  have hvalues : Generation.members e gen keys r c =
      .ok (members.map fun m => (m.1, some m.2)) := by
    rw [Generation.members, Pattern.declaredKeys_of_closed (Pattern.isOpen_of_plain hplain)]
    refine Outcome.traverse_zipIdx_eq_ok (List.forall₂_map_right_iff.2 ?_) 0
    have hkeys (m : String × Pattern) (hm : m ∈ keys) : Key.IsPlain m.1 :=
      hplain m.1 (List.mem_map_of_mem hm)
    refine (List.forall₂_and_left _ _ |>.2 ⟨hkeys, h⟩).imp ?_
    rintro m n ⟨hm, hname, hmade⟩ i
    exact memberAt_eq_ok.2 ⟨(Key.base_of_mandatory hm.1).trans hname,
      member_eq_ok hf hm.1 hmade (c.part i)⟩
  rw [object]
  show Generation.members e gen keys r c >>= _ = _
  rw [hvalues, Outcome.ok_bind, List.filterMap_map]
  show Outcome.ok (Value.object (Fields.ofPairs (members.filterMap some))) = _
  rw [List.filterMap_some, Fields.ofPairs_of_ordered hmembers]

/-- Without a repetition the values that are generated for the elements are the items. -/
theorem array_eq_ok {elements : List Pattern} {items : List Value}
    (hrest : ∀ p ∈ elements, p.isRest = false)
    (h : List.Forall₂ (fun p v => ∀ c, gen p r c = .ok v) elements items) (c : Choices) :
    array gen elements r c = .ok (.array items) := by
  have hitems : each gen elements r (c.part 0) = .ok items :=
    Outcome.traverse_zipIdx_eq_ok (h.imp fun p v hv i => hv _) 0
  rw [array, Pattern.splitRest_eq_self hrest]
  simp only [hitems, Outcome.ok_bind, Outcome.pure_eq, List.append_nil]

end Generation

namespace Pattern

variable {w : Value} {r : Resolver} {n : Nat}

/-- On a budget of its weight the literal pattern of a value generates it. -/
theorem generates_literal (hf : r.facts = []) (hw : w.WithKeys Key.IsPlain)
    (hn : (literal w).weight ≤ n) (c : Choices) :
    Generation.ofBudget n (literal w) r c = .ok w := by
  -- one step into a part takes one from the budget and at least one from the weight
  induction hw generalizing n c with
  | null | boolean | number | string | xml =>
    obtain ⟨n, rfl, -⟩ := exists_succ_of_weight_le hn
    rfl
  | @array items _ ih =>
    obtain ⟨n, rfl, hinner⟩ := exists_succ_of_weight_le hn
    have hitems : List.Forall₂ (fun p v => ∀ c, Generation.ofBudget n p r c = .ok v)
        (literals items) items := by
      rw [literals_eq_map, List.forall₂_map_left_iff, List.forall₂_same]
      exact fun v hv c => ih v hv (hinner _ (mem_inner_literal_array.2 ⟨v, hv, rfl⟩)) c
    exact Generation.array_eq_ok (by simp [literals_eq_map, isRest_literal]) hitems c
  | @object members hordered hkeys _ ih =>
    obtain ⟨n, rfl, hinner⟩ := exists_succ_of_weight_le hn
    have hmembers : List.Forall₂
        (fun key m => key.1 = m.1 ∧ ∀ c, Generation.ofBudget n key.2 r c = .ok m.2)
        (literalFields members) members := by
      rw [literalFields_eq_map, List.forall₂_map_left_iff, List.forall₂_same]
      exact fun m hm =>
        ⟨rfl, fun c => ih m hm (hinner _ (mem_inner_literal_object.2 ⟨m, hm, rfl⟩)) c⟩
    exact Generation.object_eq_ok hf (by rwa [names_literalFields]) hordered hmembers c

/-- Without facts the literal pattern of a value generates it, whatever the choices are. -/
theorem generate_literal (hf : r.facts = []) (hw : w.WithKeys Key.IsPlain) (c : Choices) :
    (literal w).generate r c = .ok w := by
  refine generates_literal hf hw ?_ c
  calc
    (literal w).weight ≤ 2 * ((literal w).weight + r.weight) := by omega
    _ ≤ _ := Engine.two_mul_le_budgetFor _

end Pattern

end DataContract
