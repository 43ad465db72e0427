import DataContract.Pattern.Shape
import DataContract.Proofs.Shapes.Literals

/-!
# Shapes that denote themselves

A JSON shape without tokens, in whose objects every key is the name of a mandatory key
(`Json.Plain`), denotes the literal pattern of the value that it is (`Shape.DenotesLiteral`). So the
pattern accepts this value and no other and generates it (`Shape.denote_of_plain`). An array with
one element is no exception: only a list token makes it a list.
-/

namespace DataContract

namespace Shape

/-- The keys that make a shape something else than an object with these keys. -/
def combinators : List String :=
  ["$enum", "$oneOf", "$dictionary", "$csv", "$string", "$number"]

end Shape

/-- No string in the JSON value is a token, and the keys of its objects, which are in order, are
names of mandatory keys and no combinators. -/
inductive Json.Plain : Json → Prop where
  | null : Plain .null
  | bool (b : Bool) : Plain (.bool b)
  | number (n : Json.Number) : Plain (.number n)
  | string {s : String} (noToken : Name.isToken s = false) : Plain (.string s)
  | array {items : List Json} (values : ∀ item ∈ items, Plain item) : Plain (.array items)
  | object {members : List (String × Json)} (ordered : Fields.Ordered members)
      (keys : ∀ name ∈ Fields.names members, Key.IsPlain name ∧ name ∉ Shape.combinators)
      (values : ∀ m ∈ members, Plain m.2) : Plain (.object members)

namespace Shape

open Pattern (literal literals literalFields)

variable {j : Json} {w : Value} {key : String} {items : List Json}
  {members : List (String × Json)} {ws : List Value} {ms : List (String × Value)}

/-! ## Combinators -/

/-- A key that the members lack denotes nothing. -/
theorem denoteUnder_eq_none (h : key ∉ Fields.names members) : denoteUnder key members = none := by
  induction members with
  | nil => rfl
  | cons m members ih =>
    obtain ⟨hne, hrest⟩ := not_or.1 (mt List.mem_cons.2 h)
    rw [denoteUnder, if_neg (Ne.symm hne), ih hrest]

/-- A key that the members lack denotes no array. -/
theorem denoteArrayUnder_eq_none (h : key ∉ Fields.names members) :
    denoteArrayUnder key members = none := by
  induction members with
  | nil => rfl
  | cons m members ih =>
    obtain ⟨k, item⟩ := m
    obtain ⟨hne, hrest⟩ := not_or.1 (mt List.mem_cons.2 h)
    cases item with
    | array items => rw [denoteArrayUnder, if_neg (Ne.symm hne), ih hrest]
    | _ => simp [denoteArrayUnder, Ne.symm hne, ih hrest]

/-- Without the key of a combinator an object shape denotes an object. -/
theorem denote_object (h : ∀ name ∈ combinators, name ∉ Fields.names members) :
    denote (.object members) = (denoteMembers members).map fun keys => .object .json keys none := by
  have hget (name : String) (hn : name ∈ combinators) : Fields.get? members name = none :=
    Fields.get?_eq_none.2 (h name hn)
  rw [denote, hget _ (by decide), denoteArrayUnder_eq_none (h _ (by decide)),
    denoteArrayUnder_eq_none (h _ (by decide)), denoteUnder_eq_none (h _ (by decide)),
    hget _ (by decide), hget _ (by decide)]

/-! ## Literals -/

/-- No literal pattern is a list, so an array of them is an array. -/
theorem arrayOf_literals (ws : List Value) : arrayOf (literals ws) = .array (literals ws) := by
  cases ws with
  | nil => rfl
  | cons w ws =>
    cases ws with
    | nil => cases w <;> rfl
    | cons => cases w <;> rfl

/-- The shape denotes the literal pattern of each value that it is, and this one has plain keys. -/
def DenotesLiteral (j : Json) : Prop :=
  ∀ w, Value.ofJson j = .ok w → denote j = .ok (literal w) ∧ w.WithKeys Key.IsPlain

/-- Items that denote literals denote the literals of what they read as. -/
theorem denoteItems_eq_ok (h : ∀ j ∈ items, DenotesLiteral j)
    (hws : Value.ofJsonItems items = .ok ws) :
    denoteItems items = .ok (literals ws) ∧ ∀ w ∈ ws, w.WithKeys Key.IsPlain := by
  induction items generalizing ws with
  | nil =>
    cases hws
    exact ⟨rfl, List.forall_mem_nil _⟩
  | cons j items ih =>
    obtain ⟨hj, hitems⟩ := List.forall_mem_cons.1 h
    rw [Value.ofJsonItems] at hws
    split at hws
    · cases hws
    · next w hw =>
      obtain ⟨ws, hrestws, rfl⟩ := map_eq_ok.1 hws
      obtain ⟨hdenote, hkeys⟩ := hj w hw
      obtain ⟨hrest, hall⟩ := ih hitems hrestws
      refine ⟨?_, List.forall_mem_cons.2 ⟨hkeys, hall⟩⟩
      rw [denoteItems, hdenote, hrest]
      rfl

/-- Members that denote literals denote, under the same names, the literals of what they read as. -/
theorem denoteMembers_eq_ok (h : ∀ m ∈ members, DenotesLiteral m.2)
    (hms : Value.ofJsonMembers members = .ok ms) :
    denoteMembers members = .ok (literalFields ms) ∧ Fields.names ms = Fields.names members ∧
      ∀ m ∈ ms, m.2.WithKeys Key.IsPlain := by
  induction members generalizing ms with
  | nil =>
    cases hms
    exact ⟨rfl, rfl, List.forall_mem_nil _⟩
  | cons m members ih =>
    obtain ⟨hm, hmembers⟩ := List.forall_mem_cons.1 h
    rw [Value.ofJsonMembers] at hms
    split at hms
    · cases hms
    · next w hw =>
      obtain ⟨ms, hrestms, rfl⟩ := map_eq_ok.1 hms
      obtain ⟨hdenote, hkeys⟩ := hm w hw
      obtain ⟨hrest, hnames, hall⟩ := ih hmembers hrestms
      refine ⟨?_, congrArg (m.1 :: ·) hnames, List.forall_mem_cons.2 ⟨hkeys, hall⟩⟩
      rw [denoteMembers, hdenote, hrest]
      rfl

/-- A plain shape denotes the literal pattern of its value. -/
theorem denotesLiteral_of_plain (hj : j.Plain) : DenotesLiteral j := by
  induction hj with
  | null | bool =>
    intro w hw
    cases hw
    exact ⟨rfl, by constructor⟩
  | number n =>
    intro w hw
    have hdenote : denote (.number n) = (Value.ofJson (.number n)).map .exact := rfl
    rw [hdenote, hw]
    obtain ⟨d, -, rfl⟩ := map_eq_ok.1 hw
    exact ⟨rfl, .number d⟩
  | string hs =>
    intro w hw
    cases hw
    rw [denote, if_neg (Bool.eq_false_iff.1 hs)]
    exact ⟨rfl, .string _⟩
  | array _ ih =>
    intro w hw
    obtain ⟨ws, hws, rfl⟩ := map_eq_ok.1 hw
    obtain ⟨hdenote, hkeys⟩ := denoteItems_eq_ok ih hws
    refine ⟨?_, .array hkeys⟩
    rw [denote, hdenote, literal, ← arrayOf_literals]
    rfl
  | object hordered hkeys _ ih =>
    intro w hw
    obtain ⟨ms, hms, rfl⟩ := map_eq_ok.1 hw
    obtain ⟨hdenote, hnames, hvalues⟩ := denoteMembers_eq_ok ih hms
    refine ⟨?_, .object ?_ (fun name hn => (hkeys name (hnames ▸ hn)).1) hvalues⟩
    · rw [denote_object fun name hc hn => (hkeys name hn).2 hc, hdenote]
      rfl
    · rwa [Fields.Ordered, hnames]

/-- A shape without tokens, marked keys and combinators denotes itself: outside mock mode a match
with the pattern ends, in a success exactly for the values that are equal to the one that the shape
is, and without facts this value is generated. -/
theorem denote_of_plain (hj : j.Plain) (hw : Value.ofJson j = .ok w) :
    ∃ p, denote j = .ok p ∧
      (∀ (v : Value) (r : Resolver), (v.WithKeys fun _ => True) → r.config.mockMode = false →
        ∃ m, p.check v r = some m ∧ (m = .success ↔ v.equal w = true)) ∧
      ∀ (r : Resolver) (c : Choices), r.facts = [] → p.generate r c = .ok w := by
  obtain ⟨hdenote, hkeys⟩ := denotesLiteral_of_plain hj w hw
  refine ⟨literal w, hdenote, fun v r hv hl => ?_, fun r c hf => ?_⟩
  · obtain ⟨m, hm⟩ := Pattern.exists_check_of_local (Pattern.local_literal hkeys) hl
    refine ⟨m, hm, ?_⟩
    have haccepts := Pattern.accepts_literal_iff hl hkeys hv
    constructor
    · rintro rfl
      exact Value.equal_symm w v (haccepts.1 (Pattern.accepts_of_check hm))
    · intro he
      have hs := (haccepts.2 (Value.equal_symm v w he)).check_eq hm
      exact Option.some.inj (hm.symm.trans hs)
  · exact Pattern.generate_literal hf hkeys c

/-- A shape with an array in an array, which has one element. -/
def profileShape : Json :=
  .object [("id", .number (.int 1)), ("tags", .array [.array [.string "new"], .null])]

/-- The value that it is. -/
def profile : Value :=
  .object [("id", .number .one), ("tags", .array [.array [.string "new"], .null])]

/-- The shape denotes a pattern that accepts and generates the value and does not accept null. -/
theorem profileShape_denotes :
    profileShape.Plain ∧ Value.ofJson profileShape = .ok profile ∧
      ∃ p, denote profileShape = .ok p ∧ p.check profile .empty = some .success ∧
        (∃ m, p.check .null .empty = some m ∧ m ≠ .success) ∧
        ∀ c, p.generate .empty c = .ok profile := by
  have hnew : Json.Plain (.array [.string "new"]) :=
    .array (List.forall_mem_singleton.2 (.string (by decide)))
  have htags : Json.Plain (.array [.array [.string "new"], .null]) :=
    .array (List.forall_mem_cons.2 ⟨hnew, List.forall_mem_singleton.2 .null⟩)
  have hplain : profileShape.Plain :=
    .object (by decide) (by decide)
      (List.forall_mem_cons.2 ⟨.number _, List.forall_mem_singleton.2 htags⟩)
  have hvalue : Value.ofJson profileShape = .ok profile := rfl
  obtain ⟨p, hdenote, hcheck, hgenerate⟩ := denote_of_plain hplain hvalue
  have hprofile : profile.WithKeys fun _ => True :=
    (denotesLiteral_of_plain hplain profile hvalue).2.imp fun _ _ => trivial
  obtain ⟨m, hm, hsuccess⟩ := hcheck profile .empty hprofile rfl
  obtain ⟨m', hm', hfailure⟩ := hcheck .null .empty .null rfl
  refine ⟨hplain, hvalue, p, hdenote, ?_, ⟨m', hm', ?_⟩, fun c => hgenerate .empty c rfl⟩
  · rw [hm, hsuccess.2 profile.equal_self]
  · exact fun he => nomatch hfailure.1 he

end Shape

end DataContract
