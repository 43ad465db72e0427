import DataContract.Proofs.Containment.Reflexivity
import DataContract.Proofs.Containment.Soundness
import DataContract.Proofs.Enumerations
import DataContract.Proofs.Termination.Budget

/-!
# Containment of enumerations

An enumeration is compared as the union of its exact literals and, if it is nullable, null. Exact
literals contain their equals alone, null contains none of them, and they do not contain null. So an
enumeration contains another one exactly when it has an equal of each literal and admits null if the
other one does (`Pattern.exists_encompasses_enumeration`).
-/

namespace DataContract

/-- An aggregate over a traversal ends if the computation for every element does. -/
theorem exists_all_traverse {α : Type} {f : α → Option MatchResult} {l : List α}
    (h : ∀ a ∈ l, ∃ m, f a = some m) :
    ∃ m, (traverse? f l >>= fun rs => some (MatchResult.all rs)) = some m := by
  obtain ⟨rs, hrs⟩ := exists_traverse? h
  exact ⟨MatchResult.all rs, by rw [hrs]; rfl⟩

namespace Engine

variable {e : Engine} {members : List Pattern} {name : String} {q : Pattern}
  {mine theirs : Resolver} {stack : TypeStack}

/-- Comparing a union that has members with another pattern ends if comparing their members does. It
ends in a success exactly when each member of that pattern is contained in a member of the union. -/
theorem exists_encompassesUnion (hne : members ≠ [])
    (h : ∀ m ∈ q.unionMembers, ∀ p ∈ members, ∃ result,
      e.encompasses p m mine theirs stack = some result) :
    ∃ result, e.encompassesUnion members name q mine theirs stack = some result ∧
      (result = .success ↔
        ∀ m ∈ q.unionMembers, ∃ p ∈ members, Succeeds (e.encompasses p m mine theirs stack)) := by
  have hends : ∃ result, e.encompassesUnion members name q mine theirs stack = some result := by
    refine exists_all_traverse fun m hm => ?_
    obtain ⟨attempts, hattempts⟩ := exists_traverse? (h m hm)
    rw [hattempts]
    simp only [Option.bind_eq_bind, Option.bind_some]
    split <;> exact ⟨_, rfl⟩
  obtain ⟨result, hresult⟩ := hends
  refine ⟨result, hresult, ?_⟩
  rw [← isSuccess_iff, ← succeeds_some, ← hresult]
  constructor
  · exact succeeds_encompassesUnion hne
  · intro hsome
    refine (succeeds_or_fails hresult).resolve_right (not_fails_encompassesUnion fun m hm => ?_)
    obtain ⟨p, hp, hs⟩ := hsome m hm
    exact ⟨p, hp, hs.not_fails⟩

end Engine

namespace Enumeration

variable {older : Enumeration} (newer : Enumeration) {p q : Pattern} {v : Value} (n : Nat)
  (mine theirs : Resolver) (stack : TypeStack)

/-- The members of an enumeration are its literals, and null if it may be null. -/
theorem mem_members_iff {e : Enumeration} :
    p ∈ e.members ↔ (∃ w ∈ e.literals, p = .exact w) ∨ (e.nullable = true ∧ p = .null) := by
  rw [members, List.mem_append, List.mem_map]
  cases e.nullable <;> simp [eq_comm]

/-- A step is enough to compare two members. -/
theorem exists_encompasses_members (hp : p ∈ newer.members) (hq : q ∈ older.members) :
    ∃ m, (Engine.ofBudget (n + 1)).encompasses p q mine theirs stack = some m := by
  rcases mem_members_iff.1 hp with ⟨w, -, rfl⟩ | ⟨-, rfl⟩ <;>
    rcases mem_members_iff.1 hq with ⟨v, -, rfl⟩ | ⟨-, rfl⟩ <;> exact ⟨_, rfl⟩

/-- A literal is contained in the members that are its equals. -/
theorem exists_encompasses_literal_iff (hv : v.isNull = false) :
    (∃ p ∈ newer.members,
      Succeeds ((Engine.ofBudget (n + 1)).encompasses p (.exact v) mine theirs stack)) ↔
      ∃ w ∈ newer.literals, w.equal v = true := by
  have hexact (w : Value) :
      Succeeds ((Engine.ofBudget (n + 1)).encompasses (.exact w) (.exact v) mine theirs stack) ↔
        w.equal v = true := by
    show Succeeds (some (Engine.checkExact w v)) ↔ _
    rw [succeeds_some, Engine.checkExact]
    cases hequal : w.equal v <;> simp [BEq.beq, hequal]
  constructor
  · rintro ⟨p, hp, hs⟩
    rcases mem_members_iff.1 hp with ⟨w, hw, rfl⟩ | ⟨-, rfl⟩
    · exact ⟨w, hw, (hexact w).1 hs⟩
    · -- what null contains is null, and the literal is not
      have hnull : (Scalar.null.check v).isSuccess = true := succeeds_some.1 hs
      obtain rfl := Scalar.eq_null_of_check (Engine.isSuccess_iff.1 hnull)
      cases hv
  · rintro ⟨w, hw, hequal⟩
    exact ⟨.exact w, mem_members_iff.2 (.inl ⟨w, hw, rfl⟩), (hexact w).2 hequal⟩

/-- Null is contained in null alone. -/
theorem exists_encompasses_null_iff :
    (∃ p ∈ newer.members,
      Succeeds ((Engine.ofBudget (n + 1)).encompasses p .null mine theirs stack)) ↔
      newer.nullable = true := by
  constructor
  · rintro ⟨p, hp, hs⟩
    rcases mem_members_iff.1 hp with ⟨w, -, rfl⟩ | ⟨hnullable, rfl⟩
    · have hother : (Engine.otherKind w.display .null).isSuccess = true := succeeds_some.1 hs
      cases hother
    · exact hnullable
  · intro hnullable
    exact ⟨.null, mem_members_iff.2 (.inr ⟨hnullable, rfl⟩), rfl⟩

/-- Each member is contained in a member exactly when the literals have equals and null is among
them if it has to be. -/
theorem forall_members_iff (ho : older.Checked) :
    (∀ q ∈ older.members, ∃ p ∈ newer.members,
      Succeeds ((Engine.ofBudget (n + 1)).encompasses p q mine theirs stack)) ↔
      (∀ v ∈ older.literals, ∃ w ∈ newer.literals, w.equal v = true) ∧
        (older.nullable = true → newer.nullable = true) := by
  have hliteral {v : Value} (hv : v ∈ older.literals) :=
    exists_encompasses_literal_iff newer n mine theirs stack (ho.spec.2.1 v hv)
  have hnull := exists_encompasses_null_iff newer n mine theirs stack
  constructor
  · intro h
    exact ⟨fun v hv => (hliteral hv).1 (h _ (mem_members_iff.2 (.inl ⟨v, hv, rfl⟩))),
      fun hnullable => hnull.1 (h _ (mem_members_iff.2 (.inr ⟨hnullable, rfl⟩)))⟩
  · rintro ⟨hliterals, hnullable⟩ q hq
    rcases mem_members_iff.1 hq with ⟨v, hv, rfl⟩ | ⟨hn, rfl⟩
    · exact (hliteral hv).2 (hliterals v hv)
    · exact hnull.2 (hnullable hn)

end Enumeration

namespace Pattern

variable {older newer : Enumeration} {mine theirs : Resolver} {stack : TypeStack}

/-- Comparing checked enumerations ends, and it ends in a success exactly when every literal of the
contained one equals a literal of the containing one, which is nullable if the other one is. -/
theorem exists_encompasses_enumeration (ho : older.Checked) (hn : newer.Checked) :
    ∃ m, (enumeration newer).encompasses (enumeration older) mine theirs stack = some m ∧
      (m = .success ↔ (∀ v ∈ older.literals, ∃ w ∈ newer.literals, w.equal v = true) ∧
        (older.nullable = true → newer.nullable = true)) := by
  have hbudget := Engine.sixteen_le_budgetFor ((enumeration newer).weight +
    (enumeration older).weight + mine.weight + theirs.weight + stack.length)
  obtain ⟨n, hn2⟩ := Nat.exists_eq_add_of_le' (Nat.le_trans (by decide : 2 ≤ 16) hbudget)
  have hne : newer.members ≠ [] := by
    simp [Enumeration.members, hn.uniform.1]
  rw [encompasses, hn2, ← Enumeration.forall_members_iff newer n mine theirs stack ho]
  exact Engine.exists_encompassesUnion hne fun q hq p hp =>
    Enumeration.exists_encompasses_members newer n mine theirs stack hp hq

/-- Two sizes. -/
def sizes : Enumeration :=
  ⟨[.number .one, .number ⟨false, 20, 1, by decide, by decide⟩], false, none, none⟩

/-- More sizes, one of them written otherwise, or none. -/
def moreSizes : Enumeration :=
  ⟨[.number ⟨false, 20000, 4, by decide, by decide⟩, .number .one, .number .zero], true, none, none⟩

/-- The greater choice of sizes contains the smaller one, and not the other way around. -/
theorem moreSizes_encompasses_sizes :
    sizes.Checked ∧ moreSizes.Checked ∧
      (enumeration moreSizes).encompasses (enumeration sizes) .empty .empty [] = some .success ∧
      (enumeration sizes).encompasses (enumeration moreSizes) .empty .empty [] ≠ some .success := by
  have hs : sizes.Checked := ⟨sizes.literals, false, _, rfl, rfl⟩
  have hm : moreSizes.Checked := ⟨moreSizes.literals, true, _, rfl, rfl⟩
  refine ⟨hs, hm, ?_, fun hsuccess => ?_⟩
  · obtain ⟨m, heq, hiff⟩ := exists_encompasses_enumeration hs hm
    rw [heq, hiff.2 ⟨?_, fun _ => rfl⟩]
    decide
  · obtain ⟨m, heq, hiff⟩ := exists_encompasses_enumeration hm hs
    obtain rfl := Option.some.inj (heq.symm.trans hsuccess)
    exact absurd ((hiff.1 rfl).2 rfl) (by decide)

end Pattern

end DataContract
