import DataContract.Proofs.Acceptance
import DataContract.Proofs.Closed.References
import DataContract.Proofs.Termination.Steps

/-!
# Matching ends where recursion is guarded

Recursive types describe values of any depth, and matching follows them as deep as a value goes. It
ends if a name is come to from itself only through parts of structures (`Resolver.Guarded`): the
parts of a value are lighter than the value, and as long as the question is about the same value or
its text, there are only so many patterns to go on to. So the weight of the value comes first and
the ways by open parts come second in what decreases (`Engine.rank`). A text is read before the data
in it is matched.
-/

namespace DataContract

open Pattern (openParts)
open Relation (ReflTransGen TransGen)

/-- A name is come to from itself only through a part of a structure: under a key of an object, in
an array, a list or a repetition, or as a value of a dictionary. -/
def Resolver.Guarded (r : Resolver) : Prop :=
  ∀ name, ¬ TransGen (r.RefersBy openParts) name name

/-! ## Patterns of bounded open depth -/

namespace Pattern

variable {r : Resolver} {p q : Pattern} {depth : Nat}

/-- Wherever one comes to from the pattern, the ways by open parts have fewer steps than the
number. -/
def Tame (r : Resolver) (depth : Nat) (p : Pattern) : Prop :=
  ∀ q, ReflTransGen r.Leads p q → q.ShallowBy openParts r depth

/-- The bound of a tame pattern holds for the pattern itself. -/
theorem Tame.here (h : p.Tame r depth) : p.ShallowBy openParts r depth :=
  h p .refl

/-- What one goes on to from a tame pattern is tame. -/
theorem Tame.of_leads (h : p.Tame r depth) (hq : r.Leads p q) : q.Tame r depth :=
  fun t ht => h t (.head hq ht)

/-- The parts of a value have patterns that one comes to. -/
theorem Tame.part (h : p.Tame r depth) (hq : q ∈ p.parts) : q.Tame r depth := by
  cases p with
  | object layout keys title =>
    obtain ⟨m, hm, rfl⟩ := List.mem_map.1 hq
    exact h.of_leads (.inl (List.mem_map_of_mem (List.mem_of_mem_filter hm)))
  | array elements =>
    rcases List.mem_append.1 hq with hq | hq
    · exact h.of_leads (.inl (mem_of_mem_splitRest hq))
    · obtain ⟨⟨q, min⟩, hrest, rfl⟩ := Option.map_eq_some_iff.1 (Option.mem_toList.1 hq)
      exact (h.of_leads (.inl (rest_mem_of_splitRest hrest))).of_leads (.inl List.mem_cons_self)
  | _ => exact h.of_leads (.inl hq)

/-- One comes to patterns inside the pattern and inside the registered ones. -/
theorem weight_le_of_path {start : Pattern} (hpath : ReflTransGen r.Leads start p) :
    p.weight ≤ start.weight + r.weight := by
  induction hpath with
  | refl => exact Nat.le_add_right _ _
  | @tail p q _ hq ih =>
    rcases hq with hq | ⟨name, rfl, hq⟩
    · exact (weight_lt_of_inner hq).le.trans ih
    · obtain ⟨k, hk⟩ := Resolver.exists_mem_of_resolve hq
      have hle : q.weight ≤ weightOfFields r.registry :=
        weight_le_weightOfFields (List.mem_map_of_mem hk)
      rw [Resolver.weight]
      omega

/-- Where recursion is guarded every pattern is tame. -/
theorem tame_of_guarded (hr : r.Guarded) (p : Pattern) : p.Tame r (p.weight + 2 * r.weight) := by
  intro q hpath
  have hweight := weight_le_of_path hpath
  refine Resolver.shallowBy_of_weight_le (fun p q hq => ?_) hr (by omega)
  exact weight_lt_of_inner (mem_inner_of_mem_openParts hq)

end Pattern

/-! ## Ranks -/

namespace Engine

variable {e : Engine} {r : Resolver} {p : Pattern} {n bound weight depth : Nat}

/-- How many steps are ahead of a question about something of the weight, if one comes so deep by
open parts, and anywhere not deeper than the bound. Reading takes one step more. -/
def rank (bound weight depth : Nat) : Nat :=
  weight * (2 * bound + 2) + 2 * depth

/-- A smaller weight and a smaller depth have no larger rank. -/
theorem rank_le {weight' depth' : Nat} (hw : weight' ≤ weight) (hd : depth' ≤ depth) :
    rank bound weight' depth' ≤ rank bound weight depth :=
  Nat.add_le_add (Nat.mul_le_mul_right _ hw) (Nat.mul_le_mul_left _ hd)

/-- One step by an open part is worth two of the rank. -/
theorem rank_succ : rank bound weight (depth + 1) = rank bound weight depth + 2 :=
  rfl

/-- Less weight outweighs every depth. -/
theorem rank_lt_of_lt {weight' : Nat} (h : weight' < weight) :
    rank bound weight' bound + 1 < rank bound weight depth := by
  have hmul : (weight' + 1) * (2 * bound + 2) ≤ weight * (2 * bound + 2) :=
    Nat.mul_le_mul_right _ h
  rw [Nat.succ_mul] at hmul
  unfold rank
  omega

/-- The computed budgets are above the ranks. -/
theorem rank_lt_budgetFor {size : Nat} (hw : weight ≤ size) (hb : bound ≤ 2 * size) :
    rank bound weight bound + 1 < budgetFor size := by
  have hmul : weight * (2 * bound + 2) ≤ size * (4 * size + 2) :=
    Nat.mul_le_mul hw (by omega)
  have hfour : 4 ≤ (size + 2) ^ 2 := Nat.pow_le_pow_left (Nat.le_add_left 2 size) 2
  calc
    rank bound weight bound + 1 ≤ size * (4 * size + 2) + 4 * size + 1 := by
      unfold rank
      omega
    _ < 4 * (size + 2) ^ 2 := by
      have hsquare : 4 * (size + 2) ^ 2 = size * (4 * size + 2) + 14 * size + 16 := by ring
      omega
    _ ≤ (size + 2) ^ 2 * (size + 2) ^ 2 := Nat.mul_le_mul_right _ hfour
    _ = (size + 2) ^ 4 := by ring

/-! ## Matching and reading -/

/-- Questions about tame patterns have been answered if their rank is below the number. -/
structure AnswersBelow (e : Engine) (n bound : Nat) (r : Resolver) : Prop where
  check {p : Pattern} {v : Value} {depth : Nat} (hp : p.Tame r bound)
    (hd : p.ShallowBy openParts r depth) (hn : rank bound v.weight depth < n) :
    Answered (e.check p v r)
  parse {p : Pattern} {text : String} {depth : Nat} (hp : p.Tame r bound)
    (hd : p.ShallowBy openParts r depth) (hn : rank bound (1 + text.length) depth + 1 < n) :
    e.parse p text r ≠ .unfinished

/-- The questions inside a pattern have a lower rank than the one about the pattern. -/
theorem AnswersBelow.inside (h : e.AnswersBelow n bound r) (hp : p.Tame r bound)
    (hd : p.ShallowBy openParts r depth) (hn : rank bound weight depth ≤ n) :
    e.AnswersInside r p weight := by
  have hopen {q : Pattern} (hq : r.LeadsBy openParts p q) :
      ∃ d, q.ShallowBy openParts r d ∧ rank bound weight d + 2 ≤ n := by
    cases depth with
    | zero => exact hd.elim
    | succ d => exact ⟨d, hd q hq, rank_succ ▸ hn⟩
  refine ⟨fun {q v} hq hv => ?_, fun {q text} hq htext => ?_, fun {q v} hq hv => ?_⟩
  · obtain ⟨d, hd, hn⟩ := hopen hq
    have hle : rank bound v.weight d ≤ rank bound weight d := rank_le hv le_rfl
    exact h.check (hp.of_leads hq.leads) hd (by omega)
  · obtain ⟨d, hd, hn⟩ := hopen hq
    have hle : rank bound (1 + text.length) d ≤ rank bound weight d := rank_le htext le_rfl
    exact h.parse (hp.of_leads hq.leads) hd (by omega)
  · have hq := hp.part hq
    have hlt : rank bound v.weight bound + 1 < rank bound weight depth := rank_lt_of_lt hv
    exact h.check hq hq.here (by omega)

/-- Every budget answers the questions of a lower rank, by induction on the budget. -/
theorem answersBelow_ofBudget (hr : NoElements r) (hmock : r.config.mockMode = false) (n : Nat) :
    (ofBudget n).AnswersBelow n bound r := by
  induction n with
  | zero => exact ⟨fun _ _ hn => absurd hn (Nat.not_lt_zero _),
      fun _ _ hn => absurd hn (Nat.not_lt_zero _)⟩
  | succ n ih =>
    refine ⟨fun hp hd hn => ?_, fun {p text depth} hp hd hn => ?_⟩
    · rw [Pattern.check_succ hmock]
      exact (ih.inside hp hd (Nat.le_of_lt_succ hn)).checkValue hr le_rfl
    · have hn : rank bound (1 + text.length) depth < n := Nat.lt_of_succ_lt_succ hn
      have hinside := ih.inside hp hd hn.le
      refine parseStep_ne_unfinished ?_ fun q hq t ht => hinside.parse hq (by omega)
      exact ih.check hp hd ((rank_le (Value.weight_ofText_le text) le_rfl).trans_lt hn)

end Engine

namespace Pattern

variable {r : Resolver}

/-- Where no element is registered no name stands for one. -/
theorem noElements_of_registry (h : ∀ name q, (name, q) ∈ r.registry → q.NotXml) :
    Engine.NoElements r := by
  intro name shape hresolve
  obtain ⟨k, hk⟩ := Resolver.exists_mem_of_resolve hresolve
  exact h k _ hk

/-- Where recursion is guarded every match and every reading ends. -/
theorem exists_check_of_guarded (hr : r.Guarded)
    (hregistry : ∀ name q, (name, q) ∈ r.registry → q.NotXml) (hmock : r.config.mockMode = false)
    (p : Pattern) : (∀ v, ∃ m, p.check v r = some m) ∧ ∀ text, p.parse text r ≠ .unfinished := by
  have htame := tame_of_guarded hr p
  have hnone := noElements_of_registry hregistry
  refine ⟨fun v => ?_, fun text => ?_⟩
  · have hrank : Engine.rank (p.weight + 2 * r.weight) v.weight (p.weight + 2 * r.weight) + 1 <
        Engine.budgetFor (p.weight + v.weight + r.weight) :=
      Engine.rank_lt_budgetFor (by omega) (by omega)
    exact (Engine.answersBelow_ofBudget hnone hmock _).check htame htame.here (by omega)
  · have hpos := p.weight_pos
    exact (Engine.answersBelow_ofBudget hnone hmock _).parse htame htame.here
      (Engine.rank_lt_budgetFor (by omega) (by omega))

end Pattern

end DataContract
