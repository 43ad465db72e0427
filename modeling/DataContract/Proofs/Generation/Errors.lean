import DataContract.Generation
import DataContract.Proofs.Everywhere
import DataContract.Proofs.Outcomes

/-!
# Where errors come from

Reading says of a text that it cannot be read (`ContractError.IsParse`). Every other error of
reading comes from a part of the pattern or arises at a reference (`Engine.error_of_parseStep`), and
so it is with generation (`Generation.errs_of_step`). What errors a pattern has is then seen by an
induction on the budget that looks at references only.
-/

namespace DataContract

/-- The error says that a text cannot be read. -/
def ContractError.IsParse (err : ContractError) : Prop :=
  ∃ text typeName reason, err = .parse text typeName reason

namespace Engine

variable {e : Engine} {p : Pattern} {text : String} {r : Resolver} {err : ContractError}

/-! ## Reading -/

/-- The error of reading a number is about the text. -/
theorem isParse_of_readDecimal (h : readDecimal text = .error err) : err.IsParse := by
  unfold readDecimal at h
  split at h
  · cases h
  · cases h
    exact ⟨_, _, _, rfl⟩

/-- The error of a scalar that does not read is about the text. -/
theorem isParse_of_read {s : Scalar} (h : s.read text = .error err) : err.IsParse := by
  have hword {word reason : String} : (ContractError.parse text word reason).IsParse :=
    ⟨_, _, _, rfl⟩
  cases s with
  | number range =>
    exact isParse_of_readDecimal (map_eq_error.1 h)
  | boolean =>
    unfold Scalar.read at h
    dsimp only at h
    split at h
    · cases h
    · split at h
      · cases h
      · cases h
        exact hword
  | null =>
    unfold Scalar.read at h
    dsimp only at h
    split at h
    · cases h
    · cases h
      exact hword
  | _ => cases h

/-- The error of a scalar that reads but does not accept is about the text as well. -/
theorem isParse_of_scalar {s : Scalar} (h : s.parse text = .error err) : err.IsParse := by
  unfold Scalar.parse at h
  split at h
  · next hread =>
    cases h
    exact isParse_of_read hread
  · split at h
    · cases h
    · cases h
      exact ⟨_, _, _, rfl⟩

/-- The error about a value that was read and not accepted is about the text. -/
theorem isParse_of_accepted {name : String} {v : Value} {m : MatchResult}
    (h : accepted name text v m = .error err) : err.IsParse := by
  cases m with
  | success => cases h
  | failure f =>
    cases h
    exact ⟨_, _, _, rfl⟩

/-- The error about structured data is about the text. -/
theorem isParse_of_parseStructured (h : e.parseStructured p text r = .error err) :
    err.IsParse := by
  unfold parseStructured at h
  dsimp only at h
  split at h
  · cases h
  · exact isParse_of_accepted h

/-- The error about an exact value is about the text. -/
theorem isParse_of_parseExact {value : Value} (h : parseExact value text = .error err) :
    err.IsParse := by
  unfold parseExact at h
  split at h
  · next hread =>
    cases h
    cases value with
    | number d => exact isParse_of_readDecimal (map_eq_error.1 hread)
    | _ => cases hread
  · exact isParse_of_accepted h

/-- Of the members of a union the last one has the last word. -/
theorem error_of_parseMembers {members : List Pattern} {last : Option ContractError} :
    e.parseMembers text r members last ≠ .error err ∧
      (e.parseMembers text r members last = .ok (.error (some err)) →
        last = some err ∨ ∃ p ∈ members, e.parse p text r = .error err) := by
  induction members generalizing last with
  | nil =>
    refine ⟨nofun, fun h => .inl ?_⟩
    cases h
    rfl
  | cons p members ih =>
    rw [parseMembers]
    split
    · exact ⟨nofun, nofun⟩
    · next err' hp =>
      obtain ⟨hne, hlast⟩ := @ih (some err')
      refine ⟨hne, fun h => .inr ?_⟩
      rcases hlast h with he | ⟨q, hq, he⟩
      · cases he
        exact ⟨p, List.mem_cons_self, hp⟩
      · exact ⟨q, List.mem_cons_of_mem _ hq, he⟩
    · exact ⟨nofun, nofun⟩

/-- The error of a union is about the text or comes from one of its members. -/
theorem error_of_parseUnion {members : List Pattern} {name : String}
    (h : e.parseUnion members name text r = .error err) :
    err.IsParse ∨ ∃ p ∈ members, e.parse p text r = .error err := by
  have hfailed {last : Option ContractError}
      (hlast : e.parseMembers text r (Pattern.nonNull members) none = .ok (.error last))
      (h : Outcome.error (α := Value)
        (last.getD (.parse text name "no member accepts this text")) = .error err) :
      err.IsParse ∨ ∃ p ∈ members, e.parse p text r = .error err := by
    cases last with
    | none =>
      cases h
      exact .inl ⟨_, _, _, rfl⟩
    | some err' =>
      cases h
      rcases error_of_parseMembers.2 hlast with he | ⟨p, hp, he⟩
      · cases he
      · exact .inr ⟨p, List.mem_of_mem_filter hp, he⟩
  unfold parseUnion at h
  split at h
  · cases h
  · next herr => exact absurd herr error_of_parseMembers.1
  · cases h
  · next hlast =>
    dsimp only at h
    split at h
    · split at h
      · cases h
      · exact hfailed hlast h
    · exact hfailed hlast h

/-- An error of reading says that the text cannot be read, or it comes from a part, or it arises at
a reference. -/
theorem error_of_parseStep (h : e.parseStep p text r = .error err) :
    err.IsParse ∨ (∃ q ∈ p.parts, e.parse q text r = .error err) ∨
      ∃ name, p = .reference name ∧ (r.resolve name = .error err ∨
        ∃ q, r.resolve name = .ok q ∧ e.parse q text r = .error err) := by
  cases p with
  | scalar s =>
    rw [parseStep] at h
    exact .inl (isParse_of_scalar (Outcome.ofExcept_eq_error.1 h))
  | anything => cases h
  | object | array | list | rest | dictionary | xml => exact .inl (isParse_of_parseStructured h)
  | union members title text =>
    exact (error_of_parseUnion h).imp_right .inl
  | enumeration shape =>
    exact (error_of_parseUnion h).imp_right .inl
  | exact value => exact .inl (isParse_of_parseExact h)
  | reference name =>
    simp only [parseStep] at h
    refine .inr (.inr ⟨name, rfl, ?_⟩)
    split at h
    · next q hq => exact .inr ⟨q, hq, h⟩
    · next hresolve =>
      cases h
      exact .inl hresolve
  | lookup key type => exact .inr (.inl ⟨type, List.mem_cons_self, h⟩)
  | inString type =>
    exact .inr (.inl ⟨type, List.mem_cons_self, Outcome.map_eq_error.1 h⟩)
  | csv item =>
    simp only [parseStep] at h
    split at h
    · cases h
    · exact .inl (isParse_of_accepted h)

end Engine

namespace Generation

variable {e : Engine} {gen : Generator} {r : Resolver} {c : Choices} {p : Pattern}
  {err : ContractError}

/-! ## Generation -/

/-- The generator ends in the error for the pattern, for some outcome of the choices. -/
def Errs (gen : Generator) (r : Resolver) (p : Pattern) (err : ContractError) : Prop :=
  ∃ c, gen p r c = .error err

/-- Looking for a fact that fits ends in no error, as a fact that does not fit is left aside. -/
theorem acceptedFact?_ne_error {name : String} : acceptedFact? e name p r ≠ .error err := by
  unfold acceptedFact?
  split
  · exact nofun
  · split <;> exact nofun

/-- A member ends in an error of its pattern, and in a recursion only if it is mandatory. -/
theorem errs_of_member {key : String} (h : member e gen key p r c = .error err) :
    Errs gen r p err ∧ (Key.isOptional key = true → ∀ name, err ≠ .recursion name) := by
  rcases Outcome.bind_eq_error.1 h with h | ⟨fact, -, h⟩
  · exact absurd h acceptedFact?_ne_error
  · split at h
    · cases h
    · split at h
      · next hk =>
        refine ⟨?_, fun ho => by simp [ho] at hk⟩
        rcases Outcome.bind_eq_error.1 h with h | ⟨v, -, h⟩
        · exact ⟨_, h⟩
        · cases h
      · split at h
        · cases h
        · split at h
          · cases h
          · cases h
          · next hne herr =>
            cases h
            exact ⟨⟨_, herr⟩, fun _ name he => hne name he⟩
          · cases h

/-- Items end in an error of their pattern, and in a recursion only if there have to be some. -/
theorem errs_of_items {min left done : Nat} (h : items gen p min r c left done = .error err) :
    Errs gen r p err ∧ (min = 0 → ∀ name, err ≠ .recursion name) := by
  induction left generalizing done with
  | zero => cases h
  | succ left ih =>
    rw [items] at h
    split at h
    · exact ih (Outcome.map_eq_error.1 h)
    · next herr =>
      split at h
      · cases h
      · next hdone =>
        cases h
        exact ⟨⟨_, herr⟩, fun hmin => absurd (hmin ▸ Nat.zero_le _) hdone⟩
    · next hne herr =>
      cases h
      exact ⟨⟨_, herr⟩, fun _ name he => hne name he⟩
    · cases h

/-- The error of several patterns comes from one of them. -/
theorem errs_of_each {patterns : List Pattern} (h : each gen patterns r c = .error err) :
    ∃ p ∈ patterns, Errs gen r p err := by
  obtain ⟨a, ha, he⟩ := Outcome.exists_of_traverse_error h
  exact ⟨a.1, List.fst_mem_of_mem_zipIdx ha, _, he⟩

/-- The members of a dictionary end in an error of the keys, or in one of the values that is no
recursion. -/
theorem errs_of_entries {key value : Pattern} {left done : Nat}
    (h : entries gen key value r c left done = .error err) :
    Errs gen r key err ∨ Errs gen r value err ∧ ∀ name, err ≠ .recursion name := by
  induction left generalizing done with
  | zero => cases h
  | succ left ih =>
    rw [entries] at h
    split at h
    · next herr =>
      cases h
      exact .inl ⟨_, herr⟩
    · cases h
    · split at h
      · exact ih (Outcome.map_eq_error.1 h)
      · cases h
      · next hne herr =>
        cases h
        exact .inr ⟨⟨_, herr⟩, fun name he => hne name he⟩
      · cases h

/-- The first value of several patterns ends in an error only if there is an error for each, and
then in one of these. -/
theorem errs_of_first {candidates : List (Pattern × Nat)} {last : ContractError}
    (h : first gen r c candidates last = .error err) :
    (∀ a ∈ candidates, ∃ e, Errs gen r a.1 e) ∧
      (candidates ≠ [] → ∃ a ∈ candidates, Errs gen r a.1 err) := by
  induction candidates generalizing last with
  | nil => exact ⟨nofun, fun hne => absurd rfl hne⟩
  | cons a candidates ih =>
    obtain ⟨p, i⟩ := a
    rw [first] at h
    split at h
    · cases h
    · next e he =>
      obtain ⟨hall, hlast⟩ := ih h
      refine ⟨List.forall_mem_cons.2 ⟨⟨e, _, he⟩, hall⟩, fun _ => ?_⟩
      cases candidates with
      | nil =>
        cases h
        exact ⟨_, List.mem_cons_self, _, he⟩
      | cons b candidates =>
        obtain ⟨a, ha, herr⟩ := hlast (List.cons_ne_nil _ _)
        exact ⟨a, List.mem_cons_of_mem _ ha, herr⟩
    · cases h

/-- The members of a union are tried in turn from any one on. -/
theorem mem_rotated {l : List (Pattern × Nat)} {a : Pattern × Nat} (start : Nat) :
    a ∈ l.drop start ++ l.take start ↔ a ∈ l := by
  rw [List.mem_append, or_comm, ← List.mem_append, List.take_append_drop]

/-- A union without null ends in an error only if there is an error for each member, and then in one
of these. -/
theorem errs_of_union {members : List Pattern} (h : union gen members r c = .error err) :
    Pattern.hasNull members = false ∧ Pattern.nonNull members ≠ [] ∧
      (∀ p ∈ Pattern.nonNull members, ∃ e, Errs gen r p e) ∧
      ∃ p ∈ Pattern.nonNull members, Errs gen r p err := by
  unfold union at h
  dsimp only at h
  split at h
  · cases h
  · next hempty =>
    have hne : Pattern.nonNull members ≠ [] := by simpa using hempty
    split at h
    · next e he =>
      split at h
      · cases h
      · next hnull =>
        cases h
        obtain ⟨hall, herr⟩ := errs_of_first he
        have hcandidate : ∀ p ∈ Pattern.nonNull members, ∃ i,
            (p, i) ∈ (Pattern.nonNull members).zipIdx := by
          intro p hp
          obtain ⟨i, hi⟩ := List.getElem?_of_mem hp
          exact ⟨i, List.mk_mem_zipIdx_iff_getElem?.2 hi⟩
        refine ⟨Bool.eq_false_iff.2 hnull, hne, fun p hp => ?_, ?_⟩
        · obtain ⟨i, hi⟩ := hcandidate p hp
          exact hall (p, i) ((mem_rotated _).2 hi)
        · obtain ⟨p, hp⟩ := List.exists_mem_of_ne_nil _ hne
          obtain ⟨i, hi⟩ := hcandidate p hp
          obtain ⟨a, ha, herr⟩ := herr (List.ne_nil_of_mem ((mem_rotated _).2 hi))
          exact ⟨a.1, List.fst_mem_of_mem_zipIdx ((mem_rotated _).1 ha), herr⟩
    · next hok => exact absurd h (hok err)

/-- An error of a step of generation is one of reading, or it comes from a part, or it arises at a
reference. Of XML elements nothing is said. -/
theorem errs_of_step (h : step e gen p r c = .error err) (hx : ∀ shape, p ≠ .xml shape) :
    (∃ text, e.parse p text r = .error err) ∨ (∃ q ∈ p.parts, Errs gen r q err) ∨
      ∃ name, p = .reference name ∧ (r.expand name = .error err ∨
        ∃ s, r.expand name = .ok s ∧ (s.resolve name = .error err ∨
          ∃ q, s.resolve name = .ok q ∧ Errs gen s q err)) := by
  cases p with
  | scalar | anything | exact => cases h
  | object layout keys title =>
    rcases Outcome.bind_eq_error.1 h with h | ⟨values, -, h⟩
    · obtain ⟨⟨⟨key, p⟩, i⟩, ha, h⟩ := Outcome.exists_of_traverse_error h
      rcases Outcome.bind_eq_error.1 h with h | ⟨value, -, h⟩
      · refine .inr (.inl ⟨p, ?_, (errs_of_member h).1⟩)
        exact List.mem_map.2 ⟨_, List.fst_mem_of_mem_zipIdx ha, rfl⟩
      · cases h
    · cases h
  | array elements =>
    rcases Outcome.bind_eq_error.1 h with h | ⟨head, -, h⟩
    · obtain ⟨p, hm, he⟩ := errs_of_each h
      exact .inr (.inl ⟨p, List.mem_append_left _ hm, he⟩)
    · dsimp only at h
      split at h
      · cases h
      · next p min hrest =>
        rcases Outcome.bind_eq_error.1 h with h | ⟨tail, -, h⟩
        · refine .inr (.inl ⟨p, ?_, (errs_of_items h).1⟩)
          exact List.mem_append_right _ (by simp [hrest])
        · cases h
  | list element | rest element =>
    have he := errs_of_items (Outcome.map_eq_error.1 h)
    exact .inr (.inl ⟨element, List.mem_cons_self, he.1⟩)
  | dictionary key value =>
    rcases errs_of_entries (Outcome.map_eq_error.1 h) with he | ⟨he, -⟩
    · exact .inr (.inl ⟨key, List.mem_cons_self, he⟩)
    · exact .inr (.inl ⟨value, List.mem_cons_of_mem _ List.mem_cons_self, he⟩)
  | xml shape => exact absurd rfl (hx shape)
  | union members title text =>
    cases text with
    | some text => exact .inl ⟨text, h⟩
    | none =>
      obtain ⟨-, -, -, q, hq, he⟩ := errs_of_union h
      exact .inr (.inl ⟨q, List.mem_of_mem_filter hq, he⟩)
  | enumeration shape =>
    unfold step at h
    dsimp only at h
    split at h
    · exact .inl ⟨_, h⟩
    · cases h
  | reference name =>
    refine .inr (.inr ⟨name, rfl, ?_⟩)
    rcases Outcome.bind_eq_error.1 h with h | ⟨s, hs, h⟩
    · exact .inl (Outcome.ofExcept_eq_error.1 h)
    · refine .inr ⟨s, Outcome.ofExcept_eq_ok.1 hs, ?_⟩
      rcases Outcome.bind_eq_error.1 h with h | ⟨q, hq, h⟩
      · exact .inl (Outcome.ofExcept_eq_error.1 h)
      · exact .inr ⟨q, Outcome.ofExcept_eq_ok.1 hq, c, h⟩
  | lookup key type =>
    rcases Outcome.bind_eq_error.1 h with h | ⟨fact, -, h⟩
    · exact absurd h acceptedFact?_ne_error
    · cases fact with
      | some v => cases h
      | none => exact .inr (.inl ⟨type, List.mem_cons_self, c, h⟩)
  | inString type =>
    rcases Outcome.bind_eq_error.1 h with h | ⟨v, -, h⟩
    · exact .inr (.inl ⟨type, List.mem_cons_self, c, h⟩)
    · cases h
  | csv item =>
    rcases Outcome.bind_eq_error.1 h with h | ⟨values, -, h⟩
    · obtain ⟨q, hq, he⟩ := errs_of_each h
      obtain rfl := List.eq_of_mem_replicate hq
      exact .inr (.inl ⟨q, List.mem_cons_self, he⟩)
    · cases h

end Generation

end DataContract
