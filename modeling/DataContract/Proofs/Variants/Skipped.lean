import DataContract.Proofs.Closed.Variants
import DataContract.Proofs.Rows

/-!
# Examples that are skipped

In negative mode an example that its pattern does not take is skipped (`Pattern.Skips`), and the
variants are those of a row without its column. Only a cell that has to be read and stands for
nothing (`Pattern.Dangles`) is an error in this mode, too: there the enumeration gets stuck
(`Variants.Stuck`), and nowhere else.
-/

namespace DataContract

/-! ## Examples of a row -/

namespace Pattern

variable {p : Pattern} {name text : String} {row : Row} {r : Resolver} {v : Value}

/-- The row has a cell for the pattern under the name, and its text has to be read: there is no
null, boolean or number of a JSON example, or the pattern rejects that and it is not null. -/
def ComesToRead (p : Pattern) (name : String) (row : Row) (r : Resolver) : Prop :=
  row.hasCell name = true ∧
    ∀ v, row.typedCell? name = some v → v.isNull = false ∧ p.Rejects v r

/-- The cell has to be read and stands for nothing. -/
def Dangles (p : Pattern) (name : String) (row : Row) (r : Resolver) : Prop :=
  p.ComesToRead name row r ∧ ∃ err, row.cell name = .error err

/-- The example that the row has under the name is no example for the pattern: it is a null that the
pattern rejects or a text that the pattern refuses. -/
inductive Skips (p : Pattern) (name : String) (row : Row) (r : Resolver) : Prop
  | null {v : Value} (hcell : row.hasCell name = true) (hv : row.typedCell? name = some v)
    (hnull : v.isNull = true) (hrejects : p.Rejects v r)
  | text {text : String} (hread : p.ComesToRead name row r) (htext : row.cell name = .ok text)
    (hrefuses : p.Refuses text r)

/-- The row has no cell under the name or one that is skipped. -/
def PassesOver (p : Pattern) (name : String) (row : Row) (r : Resolver) : Prop :=
  row.hasCell name = false ∨ p.Skips name row r

/-- A cell that is passed over does not stand for nothing where it has to be read. -/
theorem PassesOver.not_dangles (h : p.PassesOver name row r) : ¬ p.Dangles name row r := by
  rintro ⟨hread, err, herr⟩
  rcases h with hnone | ⟨-, hv, hnull, -⟩ | ⟨-, htext, -⟩
  · cases hread.1.symm.trans hnone
  · cases hnull.symm.trans (hread.2 _ hv).1
  · cases htext.symm.trans herr

end Pattern

namespace Engine

variable {p : Pattern} {name : String} {row : Row} {r : Resolver} {err : ContractError} {n : Nat}

/-- A cell that is there is taken as it is, or it is a null that is rejected, or its text is
read. -/
theorem cellValue_cases (hcell : row.hasCell name = true)
    (hn : (ofBudget n).cellValue name p row r ≠ .unfinished) :
    (∃ v, row.typedCell? name = some v ∧ p.Accepts v r ∧
        (ofBudget n).cellValue name p row r = .ok (.ok v)) ∨
      (∃ v err, row.typedCell? name = some v ∧ v.isNull = true ∧ p.Rejects v r ∧
        (ofBudget n).cellValue name p row r = .ok (.error err)) ∨
      p.ComesToRead name row r ∧
        (ofBudget n).cellValue name p row r = (ofBudget n).readCell name p row r := by
  unfold cellValue at hn ⊢
  cases hv : row.typedCell? name with
  | none => exact .inr (.inr ⟨⟨hcell, by simp [hv]⟩, rfl⟩)
  | some v =>
    rw [hv] at hn
    dsimp only at hn ⊢
    cases hm : (ofBudget n).check p v r with
    | none =>
      rw [hm] at hn
      exact absurd rfl hn
    | some m =>
      cases m with
      | success => exact .inl ⟨v, rfl, ⟨n, hm⟩, rfl⟩
      | failure f =>
        have hrejects : p.Rejects v r := ⟨n, hm ▸ fails_some.2 rfl⟩
        dsimp only
        cases hnull : v.isNull with
        | true => exact .inr (.inl ⟨v, _, rfl, hnull, hrejects, rfl⟩)
        | false =>
          refine .inr (.inr ⟨⟨hcell, fun w hw => ?_⟩, rfl⟩)
          obtain rfl := Option.some.inj (hv.symm.trans hw)
          exact ⟨hnull, hrejects⟩

/-- A text that has to be read stands for nothing, or it is read or refused. -/
theorem readCell_cases (hn : (ofBudget n).readCell name p row r ≠ .unfinished) :
    (∃ err, row.cell name = .error err ∧ (ofBudget n).readCell name p row r = .error err) ∨
      ∃ text, row.cell name = .ok text ∧
        ((∃ v, p.Reads text r ∧ (ofBudget n).readCell name p row r = .ok (.ok v)) ∨
          ∃ err, p.Refuses text r ∧ (ofBudget n).readCell name p row r = .ok (.error err)) := by
  unfold readCell at hn ⊢
  cases hcell : row.cell name with
  | error err => exact .inl ⟨err, rfl, rfl⟩
  | ok text =>
    rw [hcell] at hn
    dsimp only at hn ⊢
    refine .inr ⟨text, rfl, ?_⟩
    cases hparse : (ofBudget n).parse p text r with
    | ok v => exact .inl ⟨v, ⟨n, v, hparse⟩, rfl⟩
    | error err => exact .inr ⟨err, ⟨n, err, hparse⟩, rfl⟩
    | unfinished =>
      rw [hparse] at hn
      exact absurd rfl hn

/-- In negative mode a cell gives its value, no value where it is refused, or the error of looking
it up. -/
theorem rowExample_of_hasCell (hcell : row.hasCell name = true) (hr : r.negative = true) :
    (ofBudget n).rowExample name p row r = match (ofBudget n).cellValue name p row r with
      | .unfinished => .unfinished
      | .error err => .error err
      | .ok (.ok v) => .ok (some (.exact v))
      | .ok (.error _) => .ok none := by
  rw [rowExample, hcell, hr]
  rfl

/-- In negative mode a finished look at the row gives an example, which is then neither passed over
nor dangling, or it passes over the row, or the cell dangles. -/
theorem rowExample_cases (hr : r.negative = true)
    (hn : (ofBudget n).rowExample name p row r ≠ .unfinished) :
    (p.PassesOver name row r ∧ (ofBudget n).rowExample name p row r = .ok none) ∨
      (p.Dangles name row r ∧ ∃ err, (ofBudget n).rowExample name p row r = .error err) ∨
      (¬ p.PassesOver name row r ∧ ¬ p.Dangles name row r ∧
        ∃ given, (ofBudget n).rowExample name p row r = .ok (some given)) := by
  cases hcell : row.hasCell name with
  | false => exact .inl ⟨.inl hcell, by rw [rowExample, hcell]; rfl⟩
  | true =>
    rw [rowExample_of_hasCell hcell hr] at hn ⊢
    have hvalue : (ofBudget n).cellValue name p row r ≠ .unfinished := by
      intro hvalue
      rw [hvalue] at hn
      exact hn rfl
    rcases cellValue_cases hcell hvalue with
      ⟨v, hv, haccepts, heq⟩ | ⟨v, err, hv, hnull, hrejects, heq⟩ | ⟨hread, heq⟩
    · rw [heq]
      have hnot : ¬ p.Rejects v r := haccepts.not_rejects (Value.equal_self v) (.refl r)
      refine .inr (.inr ⟨?_, fun h => hnot (h.1.2 v hv).2, _, rfl⟩)
      rintro (hnone | ⟨-, hw, -, hrejects⟩ | ⟨hread, -, -⟩)
      · cases hcell.symm.trans hnone
      · cases hv.symm.trans hw
        exact hnot hrejects
      · exact hnot (hread.2 v hv).2
    · rw [heq]
      exact .inl ⟨.inr (.null hcell hv hnull hrejects), rfl⟩
    · rw [heq] at hvalue ⊢
      rcases readCell_cases hvalue with ⟨err, hdangles, heq⟩ | ⟨text, htext, ⟨v, hreads, heq⟩ |
        ⟨err, hrefuses, heq⟩⟩
      · rw [heq]
        exact .inr (.inl ⟨⟨hread, err, hdangles⟩, err, rfl⟩)
      · rw [heq]
        refine .inr (.inr ⟨?_, ?_, _, rfl⟩)
        · rintro (hnone | ⟨-, hw, hnull, -⟩ | ⟨-, htext', hrefuses⟩)
          · cases hcell.symm.trans hnone
          · cases hnull.symm.trans (hread.2 _ hw).1
          · cases htext.symm.trans htext'
            exact hreads.not_refuses (.refl r) hrefuses
        · rintro ⟨-, err, herr⟩
          cases htext.symm.trans herr
      · rw [heq]
        exact .inl ⟨.inr (.text hread htext hrefuses), rfl⟩

/-- In negative mode the only error of an example is that of a cell that stands for nothing. -/
theorem dangles_of_rowExample (hr : r.negative = true)
    (h : (ofBudget n).rowExample name p row r = .error err) : p.Dangles name row r := by
  have hn : (ofBudget n).rowExample name p row r ≠ .unfinished := by simp [h]
  rcases rowExample_cases hr hn with ⟨-, heq⟩ | ⟨hdangles, -⟩ | ⟨-, -, given, heq⟩
  · cases h.symm.trans heq
  · exact hdangles
  · cases h.symm.trans heq

/-- In negative mode there is no example only where the cell is missing or skipped. -/
theorem passesOver_of_rowExample (hr : r.negative = true)
    (h : (ofBudget n).rowExample name p row r = .ok none) : p.PassesOver name row r := by
  have hn : (ofBudget n).rowExample name p row r ≠ .unfinished := by simp [h]
  rcases rowExample_cases hr hn with ⟨hpasses, -⟩ | ⟨-, err, heq⟩ | ⟨-, -, given, heq⟩
  · exact hpasses
  · cases h.symm.trans heq
  · cases h.symm.trans heq

/-- In negative mode a cell that is passed over gives no example and no error. -/
theorem rowExample_of_passesOver (hr : r.negative = true) (h : p.PassesOver name row r)
    (hn : (ofBudget n).rowExample name p row r ≠ .unfinished) :
    (ofBudget n).rowExample name p row r = .ok none := by
  rcases rowExample_cases hr hn with ⟨-, heq⟩ | ⟨hdangles, -⟩ | ⟨hnot, -⟩
  · exact heq
  · exact absurd hdangles h.not_dangles
  · exact absurd h hnot

/-- A cell that stands for nothing never gives an example, nor the absence of one. -/
theorem rowExample_ne_ok_of_dangles (hr : r.negative = true) (h : p.Dangles name row r)
    (given : Option Pattern) : (ofBudget n).rowExample name p row r ≠ .ok given := by
  intro hok
  have hn : (ofBudget n).rowExample name p row r ≠ .unfinished := by simp [hok]
  rcases rowExample_cases hr hn with ⟨hpasses, -⟩ | ⟨-, err, heq⟩ | ⟨-, hnot, -⟩
  · exact hpasses.not_dangles h
  · cases hok.symm.trans heq
  · exact hnot h

end Engine

/-! ## Where the enumeration gets stuck -/

namespace Pattern

/-- The patterns whose variants for the same row make the variants of the pattern. -/
def passedOn : Pattern → List Pattern
  | .array elements => elements
  | .list element _ _ => [element]
  | .rest element _ => [element]
  | .dictionary _ value => [value]
  | .union members _ none => members
  | .inString type => [type]
  | .csv item => [item]
  | _ => []

/-- The patterns that the row is passed on to are inside. -/
theorem inner_of_passedOn {p q : Pattern} (h : q ∈ p.passedOn) : q ∈ p.inner := by
  cases p with
  | dictionary => exact List.mem_cons_of_mem _ h
  | array | list | rest | inString | csv => exact h
  | union members title text =>
    cases text with
    | none => exact h
    | some text => cases h
  | _ => cases h

end Pattern

namespace Variants

open Pattern (declaredKeys)

/-- In the variants of the pattern for the row a cell has to be read that stands for nothing: the
cell of a key or of a lookup, or one further inside where there is no example to take. -/
inductive Stuck : Resolver → Row → Pattern → Prop where
  | cell {r : Resolver} {row : Row} {layout : Layout} {keys : List (String × Pattern)}
      {title : Option String} {key : String} {p : Pattern} (hkey : (key, p) ∈ declaredKeys keys)
      (hcell : p.Dangles (Key.base key) row r) : Stuck r row (.object layout keys title)
  | field {r : Resolver} {row : Row} {layout : Layout} {keys : List (String × Pattern)}
      {title : Option String} {key : String} {p : Pattern} (hkey : (key, p) ∈ declaredKeys keys)
      (hpasses : p.PassesOver (Key.base key) row r)
      (hfield : Stuck r (row.stepDown (Key.base key)) p) : Stuck r row (.object layout keys title)
  | part {r : Resolver} {row : Row} {p q : Pattern} (hq : q ∈ p.passedOn) (hpart : Stuck r row q) :
      Stuck r row p
  | reference {r s : Resolver} {row : Row} {name : String} {q : Pattern}
      (hs : r.expand name = .ok s) (hq : s.resolve name = .ok q) (htype : Stuck s row q) :
      Stuck r row (.reference name)
  | lookupCell {r : Resolver} {row : Row} {key : String} {type : Pattern}
      (hcell : type.Dangles key row r) : Stuck r row (.lookup key type)
  | lookup {r : Resolver} {row : Row} {key : String} {type : Pattern}
      (hpasses : type.PassesOver key row r) (htype : Stuck r row type) :
      Stuck r row (.lookup key type)

variable {e : Engine} {source : VariantSource} {r s : Resolver} {row : Row} {p q : Pattern}
  {n : Nat} {err : ContractError}

/-- Where the enumeration gets stuck some cell of the row or of a row further inside stands for
nothing. -/
theorem Stuck.exists_cell (h : Stuck r row p) :
    ∃ path name err, (row.descend path).hasCell name = true ∧
      (row.descend path).cell name = .error err := by
  induction h with
  | cell _ hcell => exact ⟨[], _, _, hcell.1.1, hcell.2.choose_spec⟩
  | field _ _ _ ih =>
    obtain ⟨path, name, err, h⟩ := ih
    exact ⟨_ :: path, name, err, h⟩
  | part _ _ ih => exact ih
  | reference _ _ _ ih => exact ih
  | lookupCell hcell => exact ⟨[], _, _, hcell.1.1, hcell.2.choose_spec⟩
  | lookup _ _ ih => exact ih

/-! ### No variants where it is stuck -/

/-- An element has candidates only if it has variants. -/
theorem exists_of_elementCandidates {candidates : List (Option Pattern)}
    (h : elementCandidates (ofBudget n) p row r = .ok candidates) :
    ∃ m l, ofBudget m p row r = .ok l := by
  rcases elementCandidates_cases h with ⟨element, min, l, -, rfl, hl, -⟩ | ⟨-, l, -, hl, -⟩
  · exact ⟨n + 1, _, Outcome.map_eq_ok.2 ⟨l, hl, rfl⟩⟩
  · exact ⟨n, l, hl⟩

/-- A pattern has variants only if those do that the row is passed on to. -/
theorem exists_of_passedOn {l : LazyList Pattern} (hq : q ∈ p.passedOn)
    (h : ofBudget n p row r = .ok l) : ∃ m l, ofBudget m q row r = .ok l := by
  cases n with
  | zero => cases h
  | succ n =>
    have h : step (Engine.ofBudget n) (ofBudget n) p row r = .ok l := h
    cases p with
    | list | rest | dictionary | inString | csv =>
      obtain rfl := List.mem_singleton.1 hq
      obtain ⟨l, hl, -⟩ := Outcome.map_eq_ok.1 h
      exact ⟨n, l, hl⟩
    | array elements =>
      obtain ⟨slots, hslots, -⟩ := exists_of_array h
      obtain ⟨candidates, -, hcandidates⟩ := exists_right_of_forall₂ hslots hq
      exact exists_of_elementCandidates hcandidates
    | union members title text =>
      cases text with
      | none =>
        obtain ⟨lists, hlists, -⟩ := Outcome.bind_eq_ok.1 h
        obtain ⟨l, -, hl⟩ := Outcome.exists_of_traverse hlists hq
        exact ⟨n, l, hl⟩
      | some text => cases hq
    | _ => cases hq

/-- A declared key of an object with variants has an example or its pattern has variants. -/
theorem exists_of_declared_key {layout : Layout} {keys : List (String × Pattern)}
    {title : Option String} {key : String} {l : LazyList Pattern}
    (hkey : (key, p) ∈ declaredKeys keys)
    (h : ofBudget (n + 1) (.object layout keys title) row r = .ok l) :
    ∃ given, (Engine.ofBudget n).rowExample (Key.base key) p row r = .ok given ∧
      (given = none → ∃ l, ofBudget n p (row.stepDown (Key.base key)) r = .ok l) := by
  obtain ⟨keyed, -, hkeyed, -⟩ := exists_of_object h
  obtain ⟨k, -, -, hcandidates⟩ := exists_right_of_forall₂ hkeyed hkey
  rcases keyCandidates_cases hcandidates with ⟨given, hgiven, -⟩ | ⟨hnone, l, -, hl, -⟩
  · exact ⟨some given, hgiven, nofun⟩
  · exact ⟨none, hnone, fun _ => ⟨l, hl⟩⟩

/-- A cell that is passed over is not used as an example. -/
theorem eq_none_of_passesOver {name : String} {given : Option Pattern} (hr : r.negative = true)
    (h : p.PassesOver name row r)
    (hgiven : (Engine.ofBudget n).rowExample name p row r = .ok given) : given = none := by
  have hn : (Engine.ofBudget n).rowExample name p row r ≠ .unfinished := by simp [hgiven]
  exact Outcome.ok.inj (hgiven.symm.trans (Engine.rowExample_of_passesOver hr h hn))

/-- Where the enumeration is stuck no budget gives variants. -/
theorem Stuck.ne_ok (h : Stuck r row p) (hr : r.negative = true) (n : Nat) (l : LazyList Pattern) :
    ofBudget n p row r ≠ .ok l := by
  intro hl
  induction h generalizing n l with
  | cell hkey hcell =>
    cases n with
    | zero => cases hl
    | succ n =>
      obtain ⟨given, hgiven, -⟩ := exists_of_declared_key hkey hl
      exact Engine.rowExample_ne_ok_of_dangles hr hcell given hgiven
  | field hkey hpasses _ ih =>
    cases n with
    | zero => cases hl
    | succ n =>
      obtain ⟨given, hgiven, hnone⟩ := exists_of_declared_key hkey hl
      obtain ⟨l, hl⟩ := hnone (eq_none_of_passesOver hr hpasses hgiven)
      exact ih hr n l hl
  | part hq _ ih =>
    obtain ⟨m, l, hl⟩ := exists_of_passedOn hq hl
    exact ih hr m l hl
  | @reference r s row name q hs hq _ ih =>
    cases n with
    | zero => cases hl
    | succ n =>
      have hl : step (Engine.ofBudget n) (ofBudget n) (.reference name) row r = .ok l := hl
      rw [step, hs] at hl
      dsimp only at hl
      rw [hq] at hl
      obtain ⟨-, rfl⟩ := Resolver.expand_eq_ok.1 hs
      exact ih hr n l hl
  | lookupCell hcell =>
    cases n with
    | zero => cases hl
    | succ n =>
      obtain ⟨given, hgiven, -⟩ := Outcome.bind_eq_ok.1 hl
      exact Engine.rowExample_ne_ok_of_dangles hr hcell given hgiven
  | lookup hpasses _ ih =>
    cases n with
    | zero => cases hl
    | succ n =>
      obtain ⟨given, hgiven, hl⟩ := Outcome.bind_eq_ok.1 hl
      obtain rfl := eq_none_of_passesOver hr hpasses hgiven
      exact ih hr n l hl

/-! ### Stuck where there is an error -/

/-- Nothing but an example of the row makes the variants of the pattern an error: names stand for
something, unions have no example of their own, and that of an enumeration is read. -/
def Supplied (r : Resolver) : Pattern → Prop
  | .union _ _ text => text = none
  | .enumeration shape =>
    ∀ text, shape.inlineExample = some text → (Pattern.enumeration shape).Reads text r
  | .reference name => ∃ q, r.resolve name = .ok q
  | .xml _ => False
  | _ => True

/-- The first resolver knows the names of the second one, skips examples, and has a positive cap. -/
structure Skipping (s r : Resolver) : Prop where
  alike : s.Alike r
  negative : s.negative = true
  capped : 0 < s.config.maxCombinations

/-- Where there is an error for a supplied pattern the enumeration is stuck. -/
def StuckAtErrors (source : VariantSource) (r : Resolver) : Prop :=
  ∀ p row s err, p.Throughout (Supplied r) → Skipping s r → source p row s = .error err →
    Stuck s row p

variable {r₀ : Resolver}

/-- An error for an object comes from a cell of the row, of one of its keys or further inside. -/
theorem stuck_of_object {layout : Layout} {keys : List (String × Pattern)} {title : Option String}
    (hs : StuckAtErrors source r₀) (hr : Skipping r r₀)
    (hp : (Pattern.object layout keys title).Throughout (Supplied r₀))
    (h : object (Engine.ofBudget n) source layout keys title row r = .error err) :
    Stuck r row (.object layout keys title) := by
  rcases error_of_object h with ⟨key, p, hkey, h⟩ | ⟨keyed, h⟩
  · rcases error_of_keyCandidates h with h | ⟨hgiven, h⟩
    · exact .cell hkey (Engine.dangles_of_rowExample hr.negative h)
    · have hp := hp.key (Pattern.mem_declaredKeys.1 hkey).1
      exact .field hkey (Engine.passesOver_of_rowExample hr.negative hgiven)
        (hs p _ r err hp hr h)
  · have hcap := hr.capped
    rw [CombinationSpec.ofCandidates, if_neg (by omega)] at h
    cases h

/-- An error for an element comes from a cell of the row. -/
theorem stuck_of_elementCandidates (hs : StuckAtErrors source r₀) (hr : Skipping r r₀)
    (hp : p.Throughout (Supplied r₀)) (h : elementCandidates source p row r = .error err) :
    Stuck r row p := by
  rcases error_of_elementCandidates h with ⟨element, min, rfl, hsource⟩ | h
  · have hsupplied := hp.inside List.mem_cons_self
    exact .part List.mem_cons_self (hs element row r err hsupplied hr hsource)
  · exact hs p row r err hp hr h

/-- An error of one step comes from a cell of the row, where those of smaller patterns do. -/
theorem stuck_of_step (hs : StuckAtErrors source r₀)
    (hregistry : ∀ name q, (name, q) ∈ r₀.registry → q.Throughout (Supplied r₀))
    (hr : Skipping r r₀) (hp : p.Throughout (Supplied r₀))
    (h : step (Engine.ofBudget n) source p row r = .error err) : Stuck r row p := by
  have hpart {q : Pattern} (hq : q ∈ p.passedOn) (h : source q row r = .error err) :
      Stuck r row p :=
    .part hq (hs q row r err (hp.inside (Pattern.inner_of_passedOn hq)) hr h)
  cases p with
  | scalar | anything | exact => cases h
  | object => exact stuck_of_object hs hr hp h
  | array elements =>
    obtain ⟨q, hq, h⟩ := error_of_array h
    exact .part hq (stuck_of_elementCandidates hs hr (hp.inside hq) h)
  | list | rest | dictionary | inString | csv =>
    exact hpart List.mem_cons_self (Outcome.map_eq_error.1 h)
  | xml => exact hp.here.elim
  | union members title text =>
    obtain rfl : text = none := hp.here
    obtain ⟨q, hq, h⟩ := error_of_members h
    exact hpart hq h
  | enumeration shape =>
    unfold step at h
    dsimp only at h
    split at h
    · next text htext =>
      obtain ⟨m, v, hv⟩ := hp.here text htext
      exact absurd (Outcome.map_eq_error.1 h) (Engine.same_reading hr.alike.symm hv)
    · cases h
  | reference name =>
    unfold step at h
    dsimp only at h
    split at h
    · cases h
    · next s hexpand =>
      have halike : s.Alike r₀ := (Resolver.Alike.of_expand hexpand).trans hr.alike
      split at h
      · next hresolve =>
        obtain ⟨q, hq⟩ := hp.here
        rw [halike.resolve, hq] at hresolve
        cases hresolve
      · next q hq =>
        have hsupplied : q.Throughout (Supplied r₀) := by
          rw [halike.resolve] at hq
          obtain ⟨key, hkey⟩ := Resolver.exists_mem_of_resolve hq
          exact hregistry key q hkey
        obtain ⟨-, rfl⟩ := Resolver.expand_eq_ok.1 hexpand
        exact .reference hexpand hq (hs q row _ err hsupplied ⟨halike, hr.negative, hr.capped⟩ h)
  | lookup key type =>
    rcases Outcome.bind_eq_error.1 h with h | ⟨given, hgiven, h⟩
    · exact .lookupCell (Engine.dangles_of_rowExample hr.negative h)
    · cases given with
      | some given => cases h
      | none =>
        exact .lookup (Engine.passesOver_of_rowExample hr.negative hgiven)
          (hs type row r err (hp.inside List.mem_cons_self) hr h)

/-- At every budget an error comes from a cell of the row, by induction on the budget. -/
theorem stuckAtErrors_ofBudget
    (hregistry : ∀ name q, (name, q) ∈ r₀.registry → q.Throughout (Supplied r₀)) (n : Nat) :
    StuckAtErrors (ofBudget n) r₀ := by
  induction n with
  | zero => exact fun _ _ _ _ _ _ h => nomatch h
  | succ n ih => exact fun p row s err hp hs h => stuck_of_step ih hregistry hs hp h

end Variants

/-! ## Absent columns -/

/-- The row without the cells under a name. -/
def Row.without (row : Row) (name : String) : Row :=
  { row with cells := row.cells.filter (·.1 ≠ name) }

section
variable {e : Engine} {row : Row} {name other : String} {p : Pattern} {r : Resolver}

/-- A row without a cell does not have it. -/
theorem Row.hasCell_without_self : (row.without name).hasCell name = false := by
  simp [hasCell, without]

/-- A row without a cell has the others. -/
theorem Row.hasCell_without (h : other ≠ name) :
    (row.without name).hasCell other = row.hasCell other := by
  rw [hasCell, without, List.any_filter, hasCell]
  refine congrArg row.cells.any (funext fun m => ?_)
  by_cases hm : m.1 = other <;> simp [hm, h]

/-- In a row without a cell the others stand for what they did. -/
theorem Row.cell_without (h : other ≠ name) : (row.without name).cell other = row.cell other := by
  have hfind : (row.without name).cells.find? (fun m => decide (m.1 = other)) =
      row.cells.find? fun m => decide (m.1 = other) := by
    rw [without, List.find?_filter]
    refine congrArg (List.find? · row.cells) (funext fun m => ?_)
    by_cases hm : m.1 = other <;> simp [hm, h]
  rw [cell, hfind]
  rfl

/-- Without its cell a key has no example. -/
theorem Engine.rowExample_without_self : e.rowExample name p (row.without name) r = .ok none := by
  rw [rowExample, Row.hasCell_without_self]
  rfl

/-- Without the cell of another key a key has the same example. -/
theorem Engine.rowExample_without (h : other ≠ name) :
    e.rowExample other p (row.without name) r = e.rowExample other p row r := by
  unfold rowExample cellValue readCell
  rw [Row.hasCell_without h, Row.cell_without h]
  rfl

end

namespace Variants

open Pattern (declaredKeys)

variable {e : Engine} {source : VariantSource} {r : Resolver} {row : Row} {p : Pattern} {n : Nat}

/-- A key that skips its example has the candidates of a row without the column; to the other keys
the column makes no difference. -/
theorem keyCandidates_without {key name : String} (hr : r.negative = true)
    (hskips : Key.base key = name → p.Skips name row r)
    (hn : keyCandidates (Engine.ofBudget n) source key p row r ≠ .unfinished) :
    keyCandidates (Engine.ofBudget n) source key p row r =
      keyCandidates (Engine.ofBudget n) source key p (row.without name) r := by
  have hsame : (Engine.ofBudget n).rowExample (Key.base key) p row r =
      (Engine.ofBudget n).rowExample (Key.base key) p (row.without name) r := by
    by_cases hname : Key.base key = name
    · subst hname
      rw [Engine.rowExample_without_self]
      refine Engine.rowExample_of_passesOver hr (.inr (hskips rfl)) fun hunfinished => hn ?_
      rw [keyCandidates, hunfinished]
      rfl
    · exact (Engine.rowExample_without hname).symm
  rw [keyCandidates, hsame]
  rfl

/-- Where every key with a base name skips its example, the object has the variants of a row without
the column. -/
theorem object_without {layout : Layout} {keys : List (String × Pattern)} {title : Option String}
    {name : String} (hr : r.negative = true)
    (hskips : ∀ key p, (key, p) ∈ declaredKeys keys → Key.base key = name → p.Skips name row r)
    (hn : ofBudget n (.object layout keys title) row r ≠ .unfinished) :
    ofBudget n (.object layout keys title) row r =
      ofBudget n (.object layout keys title) (row.without name) r := by
  cases n with
  | zero => exact absurd rfl hn
  | succ n =>
    have hn : object (Engine.ofBudget n) (ofBudget n) layout keys title row r ≠ .unfinished := hn
    show object _ _ layout keys title row r = object _ _ layout keys title (row.without name) r
    unfold object at hn ⊢
    rw [Outcome.traverse_eq_of_ne_unfinished (fun m hm hunfinished => ?_) fun hunfinished => hn ?_]
    · obtain ⟨key, p⟩ := m
      dsimp only at hunfinished ⊢
      rw [keyCandidates_without hr (hskips key p hm)]
      intro hcandidates
      rw [hcandidates] at hunfinished
      exact hunfinished rfl
    · rw [hunfinished]
      rfl

/-- A lookup that skips its example has the variants of its type. -/
theorem lookup_skips {key : String} {type : Pattern} (hr : r.negative = true)
    (hskips : type.Skips key row r) (hn : ofBudget (n + 1) (.lookup key type) row r ≠ .unfinished) :
    ofBudget (n + 1) (.lookup key type) row r = ofBudget n type row r := by
  show (Engine.ofBudget n).rowExample key type row r >>= _ = _
  rw [Engine.rowExample_of_passesOver hr (.inr hskips) fun hunfinished => hn ?_]
  · rfl
  · show (Engine.ofBudget n).rowExample key type row r >>= _ = _
    rw [hunfinished]
    rfl

/-! ## All patterns -/

/-- In negative mode there are variants, whatever the examples of the row are, unless the
enumeration gets stuck at a cell that has to be read and stands for nothing, which it does not where
every cell of the row and of the rows further inside stands for something. An example that a key or
a lookup cannot take is skipped as if there were no column for it. -/
theorem negative_mode_iff
    (hregistry : ∀ name q, (name, q) ∈ r.registry → q.Throughout (Supplied r))
    (hp : p.Throughout (Supplied r)) (hr : r.negative = true)
    (hcap : 0 < r.config.maxCombinations) :
    (ofBudget n p row r ≠ .unfinished → ((∃ l, ofBudget n p row r = .ok l) ↔ ¬ Stuck r row p)) ∧
      ((∀ path name, (row.descend path).hasCell name = true →
        ∃ text, (row.descend path).cell name = .ok text) → ¬ Stuck r row p) ∧
      (∀ layout keys title name, p = .object layout keys title →
        (∀ key q, (key, q) ∈ declaredKeys keys → Key.base key = name → q.Skips name row r) →
        ofBudget n p row r ≠ .unfinished →
        ofBudget n p row r = ofBudget n p (row.without name) r) ∧
      ∀ key type, p = .lookup key type → type.Skips key row r →
        ofBudget (n + 1) p row r ≠ .unfinished →
        ofBudget (n + 1) p row r = ofBudget n type row r := by
  refine ⟨fun hn => ⟨?_, fun hnot => ?_⟩, fun hcells hstuck => ?_, ?_, ?_⟩
  · rintro ⟨l, hl⟩ hstuck
    exact hstuck.ne_ok hr n l hl
  · cases hx : ofBudget n p row r with
    | ok l => exact ⟨l, rfl⟩
    | error err =>
      have hskipping : Skipping r r := ⟨.refl r, hr, hcap⟩
      exact absurd (stuckAtErrors_ofBudget hregistry n p row r err hp hskipping hx) hnot
    | unfinished => exact absurd hx hn
  · obtain ⟨path, name, err, hcell, herr⟩ := hstuck.exists_cell
    obtain ⟨text, htext⟩ := hcells path name hcell
    cases herr.symm.trans htext
  · rintro layout keys title name rfl hskips hn
    exact object_without hr hskips hn
  · rintro key type rfl hskips hn
    exact lookup_skips hr hskips hn

/-- A person with a name, a number of visits and an address. -/
def guest : Pattern :=
  .object .json [("address?", .object .json [("zip", .number)] none), ("name", .string),
    ("visits", .number)] none

/-- A person whose visits are no number and whose address has no number either. -/
def guestRow : Row :=
  .ofJsonExample (.object [("address", .object [("zip", .string "unknown")]),
    ("name", .string "Jane"), ("visits", .string "many")])

/-- Negative mode without names. -/
def negativeResolver : Resolver :=
  Resolver.empty.inNegative

/-- Nothing in the example but its row can make its variants an error. -/
theorem guest_throughout : guest.Throughout (Supplied negativeResolver) := by
  have hnumber : Pattern.number.Throughout (Supplied negativeResolver) := .leaf trivial rfl
  have hstring : Pattern.string.Throughout (Supplied negativeResolver) := .leaf trivial rfl
  have haddress : (Pattern.object .json [("zip", .number)] none).Throughout
      (Supplied negativeResolver) :=
    .intro trivial (by simp [Pattern.inner, hnumber])
  exact .intro trivial (by simp [guest, Pattern.inner, hnumber, hstring, haddress])

/-- Although cells of the example are no values for their keys, its variants are enumerated. -/
theorem guest_has_variants :
    (∀ name q, (name, q) ∈ negativeResolver.registry → q.Throughout (Supplied negativeResolver)) ∧
      guest.Throughout (Supplied negativeResolver) ∧ negativeResolver.negative = true ∧
      0 < negativeResolver.config.maxCombinations ∧
      (∃ l, ofBudget 3 guest guestRow negativeResolver = .ok l) ∧
      ¬ Stuck negativeResolver guestRow guest := by
  have hregistry (name : String) (q : Pattern) (hq : (name, q) ∈ negativeResolver.registry) :
      q.Throughout (Supplied negativeResolver) :=
    absurd hq List.not_mem_nil
  have hcap : 0 < negativeResolver.config.maxCombinations := by decide
  obtain ⟨l, hl⟩ : ∃ l, ofBudget 3 guest guestRow negativeResolver = .ok l := ⟨_, rfl⟩
  have hn : ofBudget 3 guest guestRow negativeResolver ≠ .unfinished := by simp [hl]
  have hiff := (negative_mode_iff hregistry guest_throughout rfl hcap).1 hn
  exact ⟨hregistry, guest_throughout, rfl, hcap, ⟨l, hl⟩, hiff.1 ⟨l, hl⟩⟩

/-- A variable that is not defined is an error in negative mode, too, and is not skipped as if there
were no column. -/
theorem undefinedVariable_not_skipped :
    negativeResolver.negative = true ∧
      ofBudget 2 (.object .json [("name", .string)] none) (.ofCells [("name", "$who")])
        negativeResolver = .error (.row "variable who is not defined") ∧
      ∃ l, ofBudget 2 (.object .json [("name", .string)] none)
        ((Row.ofCells [("name", "$who")]).without "name") negativeResolver = .ok l :=
  ⟨rfl, rfl, _, rfl⟩

end Variants

end DataContract
