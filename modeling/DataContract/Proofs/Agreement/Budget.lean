import DataContract.Engine.Budget
import DataContract.Proofs.Agreement.Containment

/-!
# What is known stays known

One step of a better informed engine is better informed, so a bigger budget answers whatever a
smaller one does, with the same verdict (`Engine.ofBudget_below`). Two finished answers to one
question, on whatever budgets, have the same verdict (`Engine.same_verdict`).
-/

namespace DataContract

namespace Engine

open MatchResult (Agrees)

variable {e e' : Engine} {p : Pattern} {v w : Value} {text : String} {r s : Resolver}

/-! ## Reading -/

/-- The two readings by members gave the same value, or no member could read. -/
def SameReading : Except (Option ContractError) Value → Except (Option ContractError) Value → Prop
  | .ok v, .ok w => v = w
  | .error _, .error _ => True
  | _, _ => False

namespace Below

/-- A value taken as itself is matched by the kind of the pattern, one case for each kind. -/
theorem checkValue (h : e.Below e') (hv : v.equal w = true) (hr : r.Alike s) :
    Extends Agrees (e.checkValue p v r) (e'.checkValue p w s) := by
  cases p with
  | scalar s => exact .some (s.check_congr hv)
  | anything => exact .some rfl
  | object => exact h.checkObject hr hv _ _
  | array => exact h.checkArray hr hv _
  | list | rest => exact h.checkList hr hv _ _
  | dictionary => exact h.checkDictionary hr hv _ _
  | xml => exact h.checkXml hr hv _
  | union | enumeration => exact h.checkUnion hr hv _
  | exact => exact .some (Below.checkExact _ hv)
  | reference => exact h.checkReference hr hv _
  | lookup => exact h.check hv hr
  | inString => exact h.checkInString hr hv _
  | csv => exact h.checkCsv hr hv _

/-- A step of matching keeps the relation: in mock mode the same texts are compared as tokens. -/
theorem checkStep (h : e.Below e') (hv : v.equal w = true) (hr : r.Alike s) :
    Extends Agrees (e.checkStep p v r) (e'.checkStep p w s) := by
  have hmock : mockPattern? v r = mockPattern? w s := by
    unfold mockPattern?
    rw [hr.mockMode]
    cases Value.same_of_equal hv <;> rfl
  unfold Engine.checkStep
  rw [hmock]
  split
  · exact h.encompasses hr hr
  · exact h.checkValue hv hr

/-- The first member that reads is the same; the error of a member that does not read may differ. -/
theorem parseMembers (h : e.Below e') (text : String) (hr : r.Alike s) (members : List Pattern)
    (last last' : Option ContractError) :
    Outcome.Extends SameReading (e.parseMembers text r members last)
      (e'.parseMembers text s members last') := by
  induction members generalizing last last' with
  | nil => exact .ok trivial
  | cons p members ih =>
    have hp := h.parse p text hr
    simp only [Engine.parseMembers]
    cases hx : e.parse p text r with
    | ok v =>
      obtain ⟨_, hy, rfl⟩ := hp.1 v hx
      rw [hy]
      exact .ok rfl
    | error err =>
      obtain ⟨_, hy⟩ := hp.2 err hx
      rw [hy]
      exact ih _ _
    | unfinished => exact .unfinished

/-- A union reads with its first member that can, or else as null; with which error it fails may
differ. -/
theorem parseUnion (h : e.Below e') (hr : r.Alike s) (members : List Pattern) (name : String) :
    Outcome.Extends Eq (e.parseUnion members name text r)
      (e'.parseUnion members name text s) := by
  have hm := h.parseMembers text hr (Pattern.nonNull members) none none
  unfold Engine.parseUnion
  cases hx : e.parseMembers text r (Pattern.nonNull members) none with
  | unfinished => exact .unfinished
  | error err =>
    obtain ⟨_, hy⟩ := hm.2 err hx
    rw [hy]
    exact .error _ _
  | ok x =>
    obtain ⟨y, hy, hxy⟩ := hm.1 x hx
    rw [hy]
    cases x <;> cases y
    · dsimp only
      split
      · split
        · exact .ok rfl
        · exact .error _ _
      · exact .error _ _
    · exact hxy.elim
    · exact hxy.elim
    · exact .ok hxy

/-- What has been read is checked by agreeing verdicts, so it is accepted or refused alike. -/
theorem accepted (name : String) {a b : MatchResult} (h : a.Agrees b) :
    Outcome.Extends Eq (Engine.accepted name text v a) (Engine.accepted name text v b) := by
  cases a <;> cases b
  · exact .ok rfl
  · exact nomatch h
  · exact nomatch h
  · exact .error _ _

/-- A structured text is read as generic data and matched, and the matches agree. -/
theorem parseStructured (h : e.Below e') (hr : r.Alike s) :
    Outcome.Extends Eq (e.parseStructured p text r) (e'.parseStructured p text s) := by
  have hc := h.check (p := p) (Value.equal_self (.ofText text)) hr
  unfold Engine.parseStructured
  dsimp only
  cases hx : e.check p (.ofText text) r with
  | none => exact .unfinished
  | some a =>
    obtain ⟨b, hy, hab⟩ := hc a hx
    simp only [hy]
    exact accepted _ hab

/-- A step of reading keeps the relation. -/
theorem parseStep (h : e.Below e') (hr : r.Alike s) :
    Outcome.Extends Eq (e.parseStep p text r) (e'.parseStep p text s) := by
  cases p with
  | scalar c =>
    simp only [Engine.parseStep]
    cases c.parse text with
    | ok v => exact .ok rfl
    | error err => exact .error _ _
  | anything => exact .ok rfl
  | object | array | list | rest | dictionary | xml => exact h.parseStructured hr
  | union | enumeration => exact h.parseUnion hr _ _
  | exact value =>
    simp only [Engine.parseStep, Engine.parseExact]
    split
    · exact .error _ _
    · exact accepted _ (.refl _)
  | reference name =>
    simp only [Engine.parseStep]
    rw [hr.resolve]
    split
    · exact h.parse _ _ hr
    · exact .error _ _
  | lookup => exact h.parse _ _ hr
  | inString => exact (h.parse _ _ hr).map fun _ _ _ => rfl
  | csv item =>
    have hc := h.checkCsv hr (Value.equal_self (.string text)) item
    simp only [Engine.parseStep]
    cases hx : e.checkCsv item (.string text) r with
    | none => exact .unfinished
    | some a =>
      obtain ⟨b, hy, hab⟩ := hc a hx
      simp only [hy]
      exact accepted _ hab

/-- A step keeps the order of engines. -/
theorem step (h : e.Below e') : e.step.Below e'.step where
  check hv hr := h.checkStep hv hr
  parse _ _ _ _ hr := h.parseStep hr
  encompasses hr hs := h.encompassesStep hr hs

end Below

/-! ## Budgets -/

/-- The engine without answers is below every other one. -/
theorem exhausted_below (e : Engine) : exhausted.Below e where
  check _ _ := .none
  parse _ _ _ _ _ := .unfinished
  encompasses _ _ := .none

/-- A bigger budget answers what a smaller one does, with the same verdict. -/
theorem ofBudget_below {n m : Nat} (h : n ≤ m) : (ofBudget n).Below (ofBudget m) := by
  induction n generalizing m with
  | zero => exact exhausted_below _
  | succ n ih =>
    obtain ⟨m, rfl⟩ : ∃ k, m = k + 1 := ⟨m - 1, by omega⟩
    exact (ih (by omega)).step

/-- Finished matches of equal values under alike resolvers have the same verdict, whatever the
budgets. -/
theorem same_verdict {n m : Nat} (hv : v.equal w = true) (hr : r.Alike s)
    (hs : Succeeds ((ofBudget n).check p v r)) : ¬ Fails ((ofBudget m).check p w s) := by
  intro hf
  have hs' := ((ofBudget_below (Nat.le_max_left n m)).check hv hr).succeeds hs
  have hf' :=
    ((ofBudget_below (Nat.le_max_right n m)).check (Value.equal_self w) (.refl s)).fails hf
  exact hs'.not_fails hf'

/-- Finished comparisons under alike resolvers have the same verdict, whatever the budgets. -/
theorem same_containment {n m : Nat} {q : Pattern} {stack : TypeStack} (hr : r.Alike s)
    (hf : Fails ((ofBudget n).encompasses p q r r stack)) :
    ¬ Succeeds ((ofBudget m).encompasses p q s s stack) := by
  intro hs
  have hf' := ((ofBudget_below (Nat.le_max_left n m)).encompasses hr hr).fails hf
  have hs' := ((ofBudget_below (Nat.le_max_right n m)).encompasses (.refl s) (.refl s)).succeeds hs
  exact hs'.not_fails hf'

/-- A text that one budget reads is read as the same value on every budget that is finished. -/
theorem same_reading {n m : Nat} {err : ContractError} (hr : r.Alike s)
    (hv : (ofBudget n).parse p text r = .ok v) : (ofBudget m).parse p text s ≠ .error err := by
  intro hf
  obtain ⟨_, h, -⟩ := ((ofBudget_below (Nat.le_max_left n m)).parse p text hr).1 v hv
  obtain ⟨_, h'⟩ := ((ofBudget_below (Nat.le_max_right n m)).parse p text (.refl s)).2 err hf
  exact nomatch h.symm.trans h'

end Engine

end DataContract
