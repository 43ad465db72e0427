import DataContract.Proofs.Acceptance

/-!
# Which values a union accepts

A match of a value against a union, whenever it ends, ends in a success exactly when some member
accepts the value, in mock mode too (`Engine.eq_success_checkUnion_iff`): of the three ways to tell
a failure none can turn it into a success, as long as there is a member besides null. A union
without any has no failure to tell, so it accepts everything (`Pattern.nullOnly_accepts`).
-/

namespace DataContract

namespace Engine

variable {r : Resolver} {v : Value} {members : List Pattern} {n : Nat} {m : MatchResult}

/-- A finished match against a union is a success exactly when some member accepts the value or
there is no member but null. -/
theorem eq_success_checkUnion_iff (h : (ofBudget n).checkUnion members v r = some m) :
    m = .success ↔ (∃ p ∈ members, p.Accepts v r) ∨ Pattern.nonNull members = [] := by
  constructor
  · rintro rfl
    exact (succeeds_checkUnion h).imp_left fun ⟨p, hp, hs⟩ => ⟨p, hp, n, hs⟩
  · intro hfits
    have hnf : ¬ Fails ((ofBudget n).checkUnion members v r) := by
      refine not_fails_checkUnion (hfits.imp_left ?_)
      rintro ⟨p, hp, k, hs⟩
      -- The member has been matched on another budget, but no two budgets disagree.
      exact ⟨p, hp, same_verdict (Value.equal_self v) (.refl r) hs⟩
    rw [h, fails_some, Bool.not_eq_false] at hnf
    exact isSuccess_iff.1 hnf

end Engine

namespace Pattern

/-- The union of null and the booleans accepts a boolean because one of them does. -/
theorem nullableBoolean_accepts :
    (Engine.ofBudget 1).checkUnion [null, boolean] (.boolean true) Resolver.empty = some .success ∧
      ∃ p ∈ [null, boolean], p.Accepts (.boolean true) Resolver.empty := by
  have h : (Engine.ofBudget 1).checkUnion [null, boolean] (.boolean true) Resolver.empty =
      some .success := rfl
  refine ⟨h, ((Engine.eq_success_checkUnion_iff h).1 rfl).resolve_right ?_⟩
  simp [nonNull, isNull, boolean, null]

/-- A union of null alone accepts a boolean, which null does not accept. -/
theorem nullOnly_accepts :
    (union [null] none none).check (.boolean true) Resolver.empty = some .success ∧
      ∀ p ∈ [null], ¬ p.Accepts (.boolean true) Resolver.empty := by
  refine ⟨rfl, fun p hp ha => ?_⟩
  obtain rfl := List.mem_singleton.1 hp
  exact absurd (ha.fits rfl)
    (by simp [null, Fits, Scalar.check, MatchResult.mismatch, MatchResult.fail])

end Pattern

end DataContract
