import DataContract.Proofs.Everywhere
import DataContract.Proofs.Generation.Scalars
import DataContract.Proofs.Generation.Structures
import DataContract.Proofs.Reading

/-!
# Generation is sound

What a pattern generates it does not reject (`Pattern.not_rejects_of_generates`), whatever the
facts, the settings and the outcomes of the choices, and also where the registry is recursive. The
induction is on the budget of the generator: a generator that is sound for the parts is sound for
the whole.

What a generator gives depends on the names that are being expanded; what matches does not, so all
resolvers that are alike are treated as one.
-/

namespace DataContract

namespace Pattern

/-- A pattern whose generated values are accepted: bounds are checked, the declared keys of an
object are told apart by their base names, and what travels as text is scalar. -/
def GeneratedNode : Pattern → Prop
  | .scalar s => s.Checked
  | .object _ keys _ => ((declaredKeys keys).map fun m => Key.base m.1).Nodup
  | .dictionary key _ => ∃ s, key = .scalar s
  | .inString type => ∃ s, type = .scalar s
  | .csv item => ∃ s, item = .scalar s
  | .xml _ => False
  | _ => True

end Pattern

/-- No value that the generator makes under an alike resolver is rejected, and scalars are generated
by themselves. -/
structure Generator.Sound (gen : Generator) (r : Resolver) : Prop where
  scalar {s : Scalar} {r' : Resolver} {v : Value} (h : Generation.Made gen r' (.scalar s) v) :
    ∃ c, v = s.generate c
  not_rejects {p : Pattern} {r' : Resolver} {v : Value} (hr : r'.Alike r)
    (hp : p.Everywhere Pattern.GeneratedNode) (h : Generation.Made gen r' p v) : ¬ p.Rejects v r

namespace Generation

open Pattern (GeneratedNode FitsUnion)

variable {gen : Generator} {r r' : Resolver} {c : Choices} {p : Pattern} {v : Value} {n : Nat}

/-- A fact that is taken, or a value for the pattern, is not rejected. -/
theorem not_rejects_of_given (hgen : gen.Sound r) (hr : r'.Alike r)
    (hp : p.Everywhere GeneratedNode) (h : Given (Engine.ofBudget n) gen r' p v) :
    ¬ p.Rejects v r := by
  rcases h with ⟨name, hfact⟩ | h
  · exact (accepts_of_acceptedFact? hfact).not_rejects (Value.equal_self v) hr
  · exact hgen.not_rejects hr hp h

/-- What a checked scalar makes it reads again from its text. -/
theorem not_refuses_of_made {s : Scalar} (hgen : gen.Sound r) (hs : s.Checked)
    (h : Made gen r' (.scalar s) v) : ¬ (Pattern.scalar s).Refuses v.literal r := by
  obtain ⟨c, rfl⟩ := hgen.scalar h
  obtain ⟨w, hw, -⟩ := Scalar.parse_literal (Scalar.check_generate hs c)
  exact Pattern.not_refuses_scalar hw

/-! ## Lists and dictionaries -/

/-- Repeated values are as many as the least number, and none is rejected. -/
theorem fits_of_repeated {min : Nat} (hgen : gen.Sound r) (hr : r'.Alike r)
    (hp : p.Everywhere GeneratedNode) (h : (repeated gen p min r' c).map Value.array = .ok v) :
    ∃ items, v = .array items ∧ min ≤ items.length ∧ ∀ item ∈ items, ¬ p.Rejects item r := by
  obtain ⟨items, hitems, rfl⟩ := Outcome.map_eq_ok.1 h
  obtain ⟨hmin, hmade⟩ := repeated_spec hitems
  exact ⟨items, rfl, hmin, fun item hi => hgen.not_rejects hr hp (hmade item hi)⟩

/-- The keys of a generated dictionary read again, and none of its values is rejected. -/
theorem fits_of_dictionary {s : Scalar} {value : Pattern} (hgen : gen.Sound r) (hr : r'.Alike r)
    (hs : s.Checked) (hp : value.Everywhere GeneratedNode)
    (h : dictionary gen (.scalar s) value r' c = .ok v) :
    ∃ members, v = .object members ∧ ∀ m ∈ members,
      ¬ (Pattern.scalar s).Refuses m.1 r ∧ ¬ value.Rejects m.2 r := by
  obtain ⟨members, rfl, hmembers⟩ := exists_of_dictionary h
  refine ⟨members, rfl, fun m hm => ?_⟩
  obtain ⟨⟨k, hk, hliteral⟩, hmade⟩ := hmembers m hm
  rw [hliteral]
  exact ⟨not_refuses_of_made hgen hs hk, hgen.not_rejects hr hp hmade⟩

/-! ## Unions and enumerations -/

/-- A value of a union is that of its example or of one of its members. -/
theorem fitsUnion_of_union {members : List Pattern} (hl : r.config.mockMode = false)
    (hgen : gen.Sound r) (hr : r'.Alike r) (hp : ∀ p ∈ members, p.Everywhere GeneratedNode)
    (h : union gen members r' c = .ok v) : FitsUnion members v fun p v => ¬ p.Rejects v r := by
  rcases exists_of_union h with ⟨p, hm, hmade⟩ | ⟨rfl, hnil | hnull⟩
  · have hm := List.mem_of_mem_filter hm
    exact .inl ⟨p, hm, hgen.not_rejects hr (hp p hm) hmade⟩
  · exact .inr hnil
  · exact .inl ⟨_, Pattern.null_mem_of_hasNull hnull, (Pattern.not_rejects_scalar hl).2 rfl⟩

/-- A value that is drawn from the literals of an enumeration fits it. -/
theorem fitsUnion_of_literal {e : Enumeration} (hl : r.config.mockMode = false) {i : Nat}
    (hi : e.literals ≠ [] → i < e.literals.length) :
    FitsUnion e.members (e.literals.getD i .null) fun p v => ¬ p.Rejects v r := by
  cases hnil : e.literals with
  | nil =>
    refine .inr ?_
    cases hn : e.nullable <;> simp [Enumeration.members, hnil, hn, Pattern.nonNull, Pattern.null,
      Pattern.isNull]
  | cons v literals =>
    have hlt := hi (by simp [hnil])
    rw [← hnil, List.getD_eq_getElem?_getD, List.getElem?_eq_getElem hlt, Option.getD_some]
    refine .inl ⟨.exact e.literals[i], ?_, ?_⟩
    · exact List.mem_append_left _ (List.mem_map_of_mem (List.getElem_mem hlt))
    · exact Pattern.not_rejects_of_fits hl (Value.equal_self _)

/-! ## Texts -/

/-- The items that are read from a list of texts without blanks and commas are such texts. -/
theorem mem_of_mem_csvItems {texts : List String} {text : String}
    (h : ∀ text ∈ texts, Text.Solid text.toList)
    (ht : text ∈ Engine.csvItems (",".intercalate texts)) : text ∈ texts := by
  unfold Engine.csvItems at ht
  split at ht
  · cases ht
  · next hblank =>
    have hne : texts.map String.toList ≠ [] := by
      rintro hnil
      rw [List.map_eq_nil_iff.1 hnil] at hblank
      exact hblank rfl
    have hcomma : ∀ row ∈ texts.map String.toList, ',' ∉ row := by
      intro row hrow hmem
      obtain ⟨text, htext, rfl⟩ := List.mem_map.1 hrow
      exact (h text htext _ hmem).2 rfl
    rw [String.toList_intercalate] at ht
    change text ∈ (Text.splitAll ',' ([','].intercalate _)).map _ at ht
    rw [Text.splitAll_intercalate hne hcomma, List.map_map] at ht
    obtain ⟨text', hm, rfl⟩ := List.mem_map.1 ht
    have htrim := Text.trimChars_of_forall fun c hc => (h text' hm c hc).1
    simpa [htrim] using hm

/-- The items of a generated list of scalars are read again. -/
theorem fits_of_csv {s : Scalar} (hgen : gen.Sound r) (hs : s.Checked)
    (h : csv gen (.scalar s) r' c = .ok v) :
    ∃ text, v = .string text ∧
      ∀ t ∈ Engine.csvItems text, ¬ (Pattern.scalar s).Refuses t r := by
  obtain ⟨values, rfl, hmade⟩ := exists_of_csv h
  refine ⟨_, rfl, fun t ht => ?_⟩
  have hsolid : ∀ text ∈ values.map Value.literal, Text.Solid text.toList := by
    intro text htext
    obtain ⟨v, hv, rfl⟩ := List.mem_map.1 htext
    obtain ⟨c', rfl⟩ := hgen.scalar (hmade v hv)
    exact Scalar.solid_literal_generate s c'
  obtain ⟨v, hv, rfl⟩ := List.mem_map.1 (mem_of_mem_csvItems hsolid ht)
  exact not_refuses_of_made hgen hs (hmade v hv)

/-! ## All patterns -/

/-- What a sound generator for the parts makes of a pattern is not rejected. -/
theorem not_rejects_of_step (hl : r.config.mockMode = false) (hreg : r.Everywhere GeneratedNode)
    (hgen : gen.Sound r) (hr : r'.Alike r) (hp : p.Everywhere GeneratedNode)
    (h : step (Engine.ofBudget n) gen p r' c = .ok v) : ¬ p.Rejects v r := by
  have hnode := hp.here
  cases p with
  | scalar s =>
    cases h
    exact (Pattern.not_rejects_scalar hl).2 (Scalar.check_generate hnode c)
  | anything => exact Pattern.not_rejects_of_fits hl trivial
  | object layout keys title =>
    obtain ⟨fields, rfl, hdeclared, hpresent, hvalues⟩ := fitsObject_of_object hnode h
    refine Pattern.not_rejects_of_fits hl
      ⟨fields, rfl, hdeclared, hpresent, fun part hpart => ?_⟩
    obtain ⟨key, hk, -, -⟩ := Engine.mem_presentKeys.1 hpart
    exact not_rejects_of_given hgen hr (hp.key hk) (hvalues part hpart)
  | array elements =>
    obtain ⟨items, rfl, hlength, hitems⟩ := fitsArray_of_array h
    exact Pattern.not_rejects_of_fits hl ⟨items, rfl, hlength, fun i p v hplace hv =>
      hgen.not_rejects hr (hp.place hplace) (hitems i p v hplace hv)⟩
  | list element title min =>
    exact Pattern.not_rejects_of_fits hl
      (fits_of_repeated hgen hr (hp.part List.mem_cons_self) h)
  | rest element min =>
    exact Pattern.not_rejects_of_fits hl
      (fits_of_repeated hgen hr (hp.part List.mem_cons_self) h)
  | dictionary key value =>
    obtain ⟨s, rfl⟩ := hnode
    have hkey : (Pattern.scalar s).Everywhere GeneratedNode := hp.part List.mem_cons_self
    exact Pattern.not_rejects_of_fits hl (fits_of_dictionary hgen hr hkey.here
      (hp.part (List.mem_cons_of_mem _ List.mem_cons_self)) h)
  | xml shape => exact hnode.elim
  | union members title text =>
    cases text with
    | some text => exact Pattern.not_rejects_of_alike_parse hl hr h
    | none =>
      refine Pattern.not_rejects_of_fits hl ?_
      exact fitsUnion_of_union hl hgen hr (fun p hm => hp.part hm) h
  | enumeration shape =>
    unfold step at h
    dsimp only at h
    split at h
    · exact Pattern.not_rejects_of_alike_parse hl hr h
    · cases h
      refine Pattern.not_rejects_of_fits hl (fitsUnion_of_literal hl fun hne => ?_)
      exact c.below_lt (List.length_pos_of_ne_nil hne)
  | exact w =>
    cases h
    exact Pattern.not_rejects_of_fits hl (Value.equal_self v)
  | reference name =>
    obtain ⟨s, hs, h⟩ := Outcome.bind_eq_ok.1 h
    obtain ⟨q, hq, h⟩ := Outcome.bind_eq_ok.1 h
    have hsr : s.Alike r := (Resolver.Alike.of_expand (Outcome.ofExcept_eq_ok.1 hs)).trans hr
    have hq : r.resolve name = .ok q := hsr.resolve name ▸ Outcome.ofExcept_eq_ok.1 hq
    exact Pattern.not_rejects_reference hl hq (hgen.not_rejects hsr (hreg.resolve hq) ⟨c, h⟩)
  | lookup key type =>
    refine Pattern.not_rejects_of_fits hl ?_
    obtain ⟨fact, hfact, h⟩ := Outcome.bind_eq_ok.1 h
    have htype := hp.part List.mem_cons_self
    cases fact with
    | some w =>
      cases h
      exact not_rejects_of_given hgen hr htype (.inl ⟨key, hfact⟩)
    | none => exact hgen.not_rejects hr htype ⟨c, h⟩
  | inString type =>
    obtain ⟨s, rfl⟩ := hnode
    have htype : (Pattern.scalar s).Everywhere GeneratedNode := hp.part List.mem_cons_self
    obtain ⟨w, hw, h⟩ := Outcome.bind_eq_ok.1 h
    cases h
    exact Pattern.not_rejects_of_fits hl
      ⟨_, rfl, not_refuses_of_made hgen htype.here ⟨c, hw⟩⟩
  | csv item =>
    obtain ⟨s, rfl⟩ := hnode
    have hitem : (Pattern.scalar s).Everywhere GeneratedNode := hp.part List.mem_cons_self
    exact Pattern.not_rejects_of_fits hl (fits_of_csv hgen hitem.here h)

/-- At every budget generated values are not rejected, by induction on it. -/
theorem sound_ofBudget (hl : r.config.mockMode = false) (hreg : r.Everywhere GeneratedNode)
    (n : Nat) : (ofBudget n).Sound r := by
  induction n with
  | zero => exact ⟨fun ⟨_, h⟩ => (nomatch h), fun _ _ ⟨_, h⟩ => (nomatch h)⟩
  | succ n ih =>
    refine ⟨fun ⟨c, h⟩ => ?_, fun hr hp ⟨c, h⟩ => not_rejects_of_step hl hreg ih hr hp h⟩
    cases h
    exact ⟨c, rfl⟩

end Generation

namespace Pattern

variable {p : Pattern} {v : Value} {r : Resolver}

/-- A pattern does not reject what it generates. -/
theorem not_rejects_of_generates (hl : r.config.mockMode = false)
    (hreg : r.Everywhere GeneratedNode) (hp : p.Everywhere GeneratedNode)
    (h : p.Generates v r) : ¬ p.Rejects v r := by
  obtain ⟨n, h⟩ := h
  exact (Generation.sound_ofBudget hl hreg n).not_rejects (.refl r) hp h

/-- A recursive type: a node has children and perhaps a next node. -/
def node : Pattern :=
  .object .json
    [("children", .list (.reference "(Node)") none 0), ("next?", .reference "(Node)"),
      ("sizes", .csv .number)] none

/-- The type is registered, optional keys are generated, and sizes are known. -/
def nodeResolver : Resolver :=
  { Resolver.empty.register "Node" node with
    facts := [("sizes", .string "1,2")]
    config := { GenerationConfig.standard with optionalKeys := .all } }

/-- A range without bounds has been checked. -/
theorem number_checked : Scalar.Checked (.number .any) :=
  ⟨none, none, false, rfl⟩

/-- A node and what is inside it can be generated. -/
theorem node_everywhere : node.Everywhere GeneratedNode := by
  have hnames : (["children", "next?", "sizes"].map Key.base).Nodup := by decide
  have hnode : (reference "(Node)").Everywhere GeneratedNode := .leaf trivial rfl
  refine .intro hnames fun q hq => ?_
  obtain rfl | rfl | rfl :
      q = .list (.reference "(Node)") none 0 ∨ q = .reference "(Node)" ∨ q = .csv .number := by
    simpa [node, parts, declaredKeys, ellipsis] using hq
  · exact .single trivial rfl hnode
  · exact hnode
  · exact .intro ⟨_, rfl⟩ (by simpa [parts] using .leaf number_checked rfl)

/-- A node without children and without a next one, with the known sizes, is generated where the
expansion of the type would begin again, and it is not rejected. -/
theorem node_not_rejects :
    (reference "(Node)").Generates (.object [("children", .array []), ("sizes", .string "1,2")])
        nodeResolver ∧
      ¬ (reference "(Node)").Rejects (.object [("children", .array []), ("sizes", .string "1,2")])
        nodeResolver := by
  have hg : (reference "(Node)").Generates
      (.object [("children", .array []), ("sizes", .string "1,2")]) nodeResolver :=
    ⟨12, default, rfl⟩
  have hreg : nodeResolver.Everywhere GeneratedNode := by
    intro k q hq
    cases hq with
    | head => exact node_everywhere
    | tail _ h => cases h
  exact ⟨hg, not_rejects_of_generates rfl hreg (.leaf trivial rfl) hg⟩

end Pattern

end DataContract
