import DataContract.Proofs.Keys
import Mathlib.Data.List.Perm.Subperm
import Mathlib.Logic.Relation

/-!
# Resolution

Following a name ends in a registered pattern that is no reference, or it has come around in a
circle of references that stand for each other (`Resolver.not_recursion`). The steps that `resolve`
allows are enough for every registry: without them the way along references ends in the same place
(`Resolver.Ends`, `Resolver.resolve_ends`), because a way on which no name has come back is no
longer than the registry (`Resolver.Trail.length_le`).
-/

namespace DataContract

namespace Name

/-- A name in parentheses has no blanks around it to trim. -/
theorem trimChars_of_isDelimited {cs : List Char} (h : isDelimited cs = true) :
    Text.trimChars cs = cs := by
  simp only [isDelimited, Bool.and_eq_true, decide_eq_true_eq] at h
  obtain ⟨⟨-, hhead⟩, hlast⟩ := h
  refine Text.trimChars_of_ends (fun c hc => ?_) fun c hc => ?_
  · obtain rfl := Option.some_inj.1 (hhead.symm.trans hc)
    decide
  · obtain rfl := Option.some_inj.1 (hlast.symm.trans hc)
    decide

/-- What stands in parentheses is in delimited form. -/
theorem isDelimited_parentheses (cs : List Char) : isDelimited ('(' :: (cs ++ [')'])) = true := by
  have hlast : ('(' :: (cs ++ [')'])).getLast? = some ')' := by
    rw [← List.cons_append, List.getLast?_concat]
  simp [isDelimited, hlast]

/-- A name in delimited form is in delimited form. -/
theorem isDelimited_delimited (name : String) : isDelimited (delimited name).toList = true := by
  unfold delimited
  dsimp only
  split
  · next h => rwa [String.toList_ofList]
  · rw [String.toList_ofList]
    exact isDelimited_parentheses _

@[simp] theorem delimited_delimited (name : String) :
    delimited (delimited name) = delimited name := by
  have h := isDelimited_delimited name
  rw [delimited]
  simp only [trimChars_of_isDelimited h, h, if_true, String.ofList_toList]

end Name

namespace Resolver

variable {r : Resolver} {origin name next : String} {seen : List String} {p : Pattern}
  {result : Except ContractError Pattern}

/-- The first name is registered as a reference to the second one. -/
def Aliases (r : Resolver) (name next : String) : Prop :=
  r.getPattern name = .ok (.reference next)

/-- No name is registered as a reference that leads back to it through references alone. -/
def AliasFree (r : Resolver) : Prop :=
  ∀ name, ¬ Relation.TransGen r.Aliases name name

/-- Parentheses around a name do not change what it is looked up as. -/
theorem getPattern_delimited (r : Resolver) (name : String) :
    r.getPattern (Name.delimited name) = r.getPattern name := by
  rw [getPattern, Name.delimited_delimited, getPattern]

/-- A lookup finds the pattern registered under the name in parentheses. -/
theorem getPattern_eq_ok :
    r.getPattern name = .ok p ↔ Fields.get? r.registry (Name.delimited name) = some p := by
  rw [getPattern]
  cases Fields.get? r.registry (Name.delimited name) <;> simp

/-- A lookup fails only for a name that is not registered, and the error says which. -/
theorem getPattern_eq_error {e : ContractError} :
    r.getPattern name = .error e ↔
      Fields.get? r.registry (Name.delimited name) = none ∧
        .unknownPattern (Name.delimited name) = e := by
  rw [getPattern]
  cases Fields.get? r.registry (Name.delimited name) <;> simp

/-- A pattern that a name has is registered under the name in delimited form. -/
theorem mem_of_getPattern (h : r.getPattern name = .ok p) :
    (Name.delimited name, p) ∈ r.registry :=
  Fields.mem_of_get? (getPattern_eq_ok.1 h)

/-- What a lookup finds is in the registry. -/
theorem exists_mem_of_getPattern (h : r.getPattern name = .ok p) : ∃ k, (k, p) ∈ r.registry :=
  ⟨_, mem_of_getPattern h⟩

/-- Expanding a name that is not being expanded puts it on the stack and changes nothing else. -/
theorem expand_eq_ok {s : Resolver} :
    r.expand name = .ok s ↔
      r.isExpanding name = false ∧
        { r with expanding := Name.delimited name :: r.expanding } = s := by
  unfold expand
  split
  · next h => simp [h]
  · next h => simp [h]

/-! ## Where a walk ends -/

/-- What a name stands for is registered and no reference. -/
theorem follow_ok {steps : Nat} {seen : List String} (h : r.follow steps seen name = .ok p) :
    (∃ k, (k, p) ∈ r.registry) ∧ ∀ n, p ≠ .reference n := by
  induction steps generalizing seen name with
  | zero => cases h
  | succ steps ih =>
    rw [follow] at h
    split at h
    · cases h
    · split at h
      · cases h
      · exact ih h
      · next hne hq =>
        cases h
        exact ⟨exists_mem_of_getPattern hq, hne⟩

/-- What a name resolves to is in the registry. -/
theorem exists_mem_of_resolve (h : r.resolve name = .ok p) : ∃ k, (k, p) ∈ r.registry :=
  (follow_ok h).1

/-- A name that is registered as anything but a reference stands for that. -/
theorem resolve_of_getPattern (h : r.getPattern name = .ok p) (hp : ∀ n, p ≠ .reference n) :
    r.resolve name = .ok p := by
  rw [resolve, follow, getPattern_delimited, h]
  cases p with
  | reference n => exact absurd rfl (hp n)
  | _ => rfl

/-! ## The way along references -/

/-- How the way on from a name ends, in however many steps; `seen` holds the names behind. -/
inductive Ends (r : Resolver) : List String → String → Except ContractError Pattern → Prop
  | again {seen : List String} {name : String} :
      name ∈ seen → Ends r seen name (.error (.recursion name))
  | missing {seen : List String} {name : String} {e : ContractError} :
      name ∉ seen → r.getPattern name = .error e → Ends r seen name (.error e)
  | found {seen : List String} {name : String} {p : Pattern} :
      name ∉ seen → r.getPattern name = .ok p → (∀ n, p ≠ .reference n) → Ends r seen name (.ok p)
  | onward {seen : List String} {name next : String} {result : Except ContractError Pattern} :
      name ∉ seen → r.Aliases name next → Ends r (name :: seen) next result →
        Ends r seen name result

/-- There is a way along references from a name in delimited form to another name, and `seen` holds
the names behind, the last one first. -/
inductive Trail (r : Resolver) (origin : String) : List String → String → Prop
  | start : Trail r origin [] (Name.delimited origin)
  | step {seen : List String} {name next : String} :
      Trail r origin seen name → name ∉ seen → r.Aliases name next →
        Trail r origin (name :: seen) next

/-- Names that differ in delimited form and are registered are no more than the registry has. -/
theorem length_le_of_nodup {names : List String} (hnodup : (names.map Name.delimited).Nodup)
    (hnames : ∀ name ∈ names, Name.delimited name ∈ Fields.names r.registry) :
    names.length ≤ r.registry.length := by
  have hsub : names.map Name.delimited ⊆ Fields.names r.registry := by
    intro n hn
    obtain ⟨name, hname, rfl⟩ := List.mem_map.1 hn
    exact hnames name hname
  have hle := (List.subperm_of_subset hnodup hsub).length_le
  rwa [List.length_map, Fields.names, List.length_map] at hle

namespace Trail

/-- Every name behind leads to a name that is on the way too. -/
theorem exists_aliases (h : r.Trail origin seen name) {s : String} (hs : s ∈ seen) :
    ∃ next ∈ name :: seen, r.Aliases s next := by
  induction h with
  | start => cases hs
  | step _ _ ha ih =>
    rcases List.mem_cons.1 hs with rfl | hs
    · exact ⟨_, List.mem_cons_self, ha⟩
    · obtain ⟨next, hnext, hs⟩ := ih hs
      exact ⟨next, List.mem_cons_of_mem _ hnext, hs⟩

/-- As long as no name has come back, the names behind differ in delimited form: those that do not
lead to the same name. -/
theorem nodup (h : r.Trail origin seen name) (hname : name ∉ seen) :
    (seen.map Name.delimited).Nodup := by
  induction h with
  | start => exact List.nodup_nil
  | @step seen name next h hn ha ih =>
    refine List.nodup_cons.2 ⟨fun hmem => ?_, ih hn⟩
    obtain ⟨s, hs, he⟩ := List.mem_map.1 hmem
    obtain ⟨next', hnext', has⟩ := h.exists_aliases hs
    have hsame : r.getPattern s = r.getPattern name := by
      rw [← getPattern_delimited r s, he, getPattern_delimited]
    obtain rfl : next' = next := by
      cases has.symm.trans (hsame.trans ha)
      rfl
    exact hname hnext'

/-- A way on which no name has come back is no longer than the registry. -/
theorem length_le (h : r.Trail origin seen name) (hname : name ∉ seen) :
    seen.length ≤ r.registry.length := by
  refine length_le_of_nodup (h.nodup hname) fun s hs => ?_
  obtain ⟨next, -, ha⟩ := h.exists_aliases hs
  exact List.mem_map_of_mem (mem_of_getPattern ha)

/-- Every name behind leads to the name where the way has come to. -/
theorem transGen (h : r.Trail origin seen name) {s : String} (hs : s ∈ seen) :
    Relation.TransGen r.Aliases s name := by
  induction h with
  | start => cases hs
  | step _ _ ha ih =>
    rcases List.mem_cons.1 hs with rfl | hs
    · exact .single ha
    · exact (ih hs).tail ha

end Trail

/-- As many steps as the registry has names and one more are enough to come to the end. -/
theorem follow_ends {steps : Nat} (h : r.Trail origin seen name)
    (hsteps : r.registry.length < steps + seen.length) :
    r.Ends seen name (r.follow steps seen name) := by
  induction steps generalizing seen name with
  | zero =>
    refine .again ?_
    by_contra hname
    have hle := h.length_le hname
    omega
  | succ steps ih =>
    rw [follow]
    split
    · next hmem => exact .again (List.contains_iff_mem.1 hmem)
    · next hmem =>
      have hname : name ∉ seen := fun hs => hmem (List.contains_iff_mem.2 hs)
      split
      · next hg => exact .missing hname hg
      · next ha =>
        exact .onward hname ha (ih (h.step hname ha) (by simp only [List.length_cons]; omega))
      · next hp hg => exact .found hname hg hp

/-- Resolving a name ends as the walk along the registry does. -/
theorem resolve_ends (r : Resolver) (name : String) :
    r.Ends [] (Name.delimited name) (r.resolve name) :=
  follow_ends .start (by simp)

/-! ## Circles -/

/-- A way that ends because a name has come back ends on a circle. -/
theorem Ends.exists_circle {n : String} (h : r.Ends seen name result)
    (hresult : result = .error (.recursion n)) (ht : r.Trail origin seen name) :
    ∃ a, Relation.TransGen r.Aliases a a := by
  induction h with
  | again hmem => exact ⟨_, ht.transGen hmem⟩
  | missing _ hg =>
    obtain ⟨-, rfl⟩ := getPattern_eq_error.1 hg
    cases hresult
  | found => cases hresult
  | onward hname ha _ ih => exact ih hresult (ht.step hname ha)

/-- Without circles of references no name stands for nothing because of a circle. -/
theorem not_recursion (hr : r.AliasFree) (name n : String) :
    r.resolve name ≠ .error (.recursion n) := by
  intro he
  obtain ⟨a, ha⟩ := (resolve_ends r name).exists_circle he .start
  exact hr a ha

/-- Where no registered pattern is a reference there are no circles. -/
theorem aliasFree_of_forall (h : ∀ k p, (k, p) ∈ r.registry → ∀ n, p ≠ .reference n) :
    r.AliasFree := by
  intro name hcircle
  obtain ⟨next, halias, -⟩ := Relation.TransGen.head'_iff.1 hcircle
  obtain ⟨k, hk⟩ := exists_mem_of_getPattern halias
  exact h k _ hk next rfl

end Resolver

end DataContract
