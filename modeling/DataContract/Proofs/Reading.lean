import DataContract.Proofs.Acceptance
import DataContract.Proofs.Ranges

/-!
# What is read is not rejected

A value that a pattern reads from a text is one that it does not reject, on whatever budgets the
text is read and the value matched.
-/

namespace DataContract

/-- A union has null if it has a member that is null. -/
theorem Pattern.null_mem_of_hasNull {members : List Pattern}
    (h : Pattern.hasNull members = true) : Pattern.null ∈ members := by
  obtain ⟨p, hp, hnull⟩ := List.any_eq_true.1 h
  cases p with
  | scalar s =>
    cases s with
    | null => exact hp
    | _ => cases hnull
  | _ => cases hnull

namespace Engine

variable {e : Engine} {p : Pattern} {v : Value} {text : String} {r : Resolver}

/-- What the members of a union read, one of them has read. -/
theorem exists_of_parseMembers {members : List Pattern} {last : Option ContractError}
    (h : e.parseMembers text r members last = .ok (.ok v)) :
    ∃ p ∈ members, e.parse p text r = .ok v := by
  induction members generalizing last with
  | nil => cases h
  | cons p members ih =>
    rw [parseMembers] at h
    split at h
    · next hp =>
      cases h
      exact ⟨p, List.mem_cons_self, hp⟩
    · obtain ⟨q, hq, he⟩ := ih h
      exact ⟨q, List.mem_cons_of_mem _ hq, he⟩
    · cases h

/-- What a union reads, a member has read, or null is a member and reads it. -/
theorem exists_of_parseUnion {members : List Pattern} {name : String}
    (h : e.parseUnion members name text r = .ok v) :
    (∃ p ∈ members, e.parse p text r = .ok v) ∨
      (Pattern.null ∈ members ∧ Scalar.parse .null text = .ok v) := by
  unfold parseUnion at h
  split at h
  · cases h
  · cases h
  · next w hw =>
    cases h
    obtain ⟨p, hp, he⟩ := exists_of_parseMembers hw
    exact .inl ⟨p, List.mem_of_mem_filter hp, he⟩
  · dsimp only at h
    split at h
    · next hnull =>
      split at h
      · next w hw =>
        cases h
        exact .inr ⟨Pattern.null_mem_of_hasNull hnull, hw⟩
      · cases h
    · cases h

/-- A reading that is checked before it is returned is returned only on success, and unchanged. -/
theorem eq_of_accepted {name : String} {w : Value} {m : MatchResult}
    (h : accepted name text w m = .ok v) : m = .success ∧ w = v := by
  cases m with
  | success => exact ⟨rfl, by cases h; rfl⟩
  | failure f => cases h

end Engine

namespace Pattern

variable {p : Pattern} {v : Value} {text : String} {r : Resolver} {n : Nat}

/-- What a union reads fits it: null where null is a member, or a value that one member does not
reject. -/
theorem fitsUnion_of_parseUnion {members : List Pattern} {name : String}
    (hp : ∀ p, (Engine.ofBudget n).parse p text r = .ok v → ¬ p.Rejects v r)
    (h : (Engine.ofBudget n).parseUnion members name text r = .ok v) :
    FitsUnion members v fun p v => ¬ p.Rejects v r := by
  rcases Engine.exists_of_parseUnion h with ⟨p, hm, he⟩ | ⟨hm, hnull⟩
  · exact .inl ⟨p, hm, hp p he⟩
  · obtain rfl := Scalar.eq_null_of_check (Scalar.check_of_parse hnull)
    exact .inl ⟨_, hm, not_rejects_of_standsForItself rfl rfl nofun⟩

/-- JSON that is read as a structure has been matched. -/
theorem not_rejects_of_parseStructured
    (h : (Engine.ofBudget n).parseStructured p text r = .ok v) : ¬ p.Rejects v r := by
  unfold Engine.parseStructured at h
  dsimp only at h
  split at h
  · cases h
  · next m hm =>
    obtain ⟨rfl, rfl⟩ := Engine.eq_of_accepted h
    exact Accepts.not_rejects ⟨n, hm⟩ (Value.equal_self _) (.refl r)

/-- A value that is read like an exact one equals it. -/
theorem equal_of_parseExact {value : Value} (h : Engine.parseExact value text = .ok v) :
    value.equal v = true := by
  unfold Engine.parseExact at h
  split at h
  · cases h
  · next w hw =>
    obtain ⟨hc, rfl⟩ := Engine.eq_of_accepted h
    exact Engine.fits_of_succeeds (e := Engine.exhausted) (r := .empty) (p := .exact value)
      (succeeds_some.2 (Engine.isSuccess_iff.2 hc))

/-- A value that is read is not rejected if it stands for itself. -/
theorem not_rejects_of_parse_of_standsForItself (hv : v.StandsForItself r)
    (h : (Engine.ofBudget n).parse p text r = .ok v) : ¬ p.Rejects v r := by
  induction n generalizing p text v with
  | zero => cases h
  | succ n ih =>
    have h : (Engine.ofBudget n).parseStep p text r = .ok v := h
    cases p with
    | scalar s =>
      cases hs : s.parse text with
      | ok w =>
        rw [Engine.parseStep, hs] at h
        cases h
        exact not_rejects_of_standsForItself hv (Scalar.check_of_parse hs)
      | error err =>
        rw [Engine.parseStep, hs] at h
        cases h
    | anything => exact not_rejects_of_standsForItself hv trivial
    | object | array | list | rest | dictionary | xml => exact not_rejects_of_parseStructured h
    | union members title example' =>
      exact not_rejects_of_standsForItself hv (fitsUnion_of_parseUnion (fun _ he => ih hv he) h)
    | enumeration shape =>
      exact not_rejects_of_standsForItself hv (fitsUnion_of_parseUnion (fun _ he => ih hv he) h)
    | exact value => exact not_rejects_of_standsForItself hv (equal_of_parseExact h)
    | reference name =>
      simp only [Engine.parseStep] at h
      split at h
      · next q hq =>
        refine not_rejects_of_standsForItself hv ?_
        rw [Fits, FitsReference, hq]
        exact ih hv h
      · cases h
    | lookup key type => exact not_rejects_of_standsForItself hv (ih hv h)
    | inString type =>
      simp only [Engine.parseStep] at h
      cases hp : (Engine.ofBudget n).parse type text r with
      | ok w =>
        rw [hp] at h
        cases h
        exact not_rejects_of_standsForItself hv ⟨text, rfl, Reads.not_refuses ⟨n, w, hp⟩ (.refl r)⟩
      | error err => rw [hp] at h; cases h
      | unfinished => rw [hp] at h; cases h
    | csv item =>
      simp only [Engine.parseStep] at h
      split at h
      · cases h
      · next m hm =>
        obtain ⟨rfl, rfl⟩ := Engine.eq_of_accepted h
        refine Accepts.not_rejects ⟨n + 1, ?_⟩ (Value.equal_self _) (.refl r)
        rw [check_eq_checkValue hv]
        exact hm

/-- A value that is read is not rejected. -/
theorem not_rejects_of_parse (hr : r.config.mockMode = false)
    (h : (Engine.ofBudget n).parse p text r = .ok v) : ¬ p.Rejects v r :=
  not_rejects_of_parse_of_standsForItself (v.standsForItself hr) h

/-- A value that is read under an alike resolver is not rejected if it stands for itself. -/
theorem not_rejects_of_alike_parse_of_standsForItself {r' : Resolver} (hv : v.StandsForItself r)
    (hr : r'.Alike r) (h : (Engine.ofBudget n).parse p text r' = .ok v) : ¬ p.Rejects v r :=
  fun hrej => not_rejects_of_parse_of_standsForItself (hv.of_alike hr) h
    (hrej.congr (Value.equal_self v) hr.symm)

/-- A value that is read under an alike resolver is not rejected. -/
theorem not_rejects_of_alike_parse {r' : Resolver} (hl : r.config.mockMode = false)
    (hr : r'.Alike r) (h : (Engine.ofBudget n).parse p text r' = .ok v) : ¬ p.Rejects v r :=
  not_rejects_of_alike_parse_of_standsForItself (v.standsForItself hl) hr h

end Pattern

end DataContract
