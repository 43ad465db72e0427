import DataContract.Proofs.Containment.Reflexivity
import DataContract.Proofs.Containment.Soundness

/-!
# Nullable patterns

The nullable form of a pattern is the union of null and the pattern. It contains the pattern and it
contains null, and a pattern that contains its own nullable form accepts null
(`Pattern.not_excludes_nullable`).

That it contains the pattern does not follow from the members alone. The pattern may stand for a
union, whose members are then compared one by one with null and with the pattern. So the induction
over the budget is on pairs of which the containing side leads, through members, lookups and names,
to something that the contained side resembles (`Pattern.Offers`).
-/

namespace DataContract

namespace Pattern

/-- The first pattern leads to a pattern that the second one resembles: it is that pattern, or a
member of it leads there, or what it stands for does. -/
inductive Offers (r : Resolver) : Pattern → Pattern → Prop where
  | resembles {p q : Pattern} (resolved : p.Everywhere (ResolvedNode r)) (same : Resembles p q) :
      Offers r p q
  | member {p m q : Pattern} (union : Engine.isUnion p = true) (mem : m ∈ p.unionMembers)
      (offers : Offers r m q) : Offers r p q
  | standsFor {p t q : Pattern} (stands : StandsFor r p t) (offers : Offers r t q) : Offers r p q

section
variable {r : Resolver} {p q t w : Pattern}

/-- The members of a union are its parts. -/
theorem parts_of_isUnion (h : Engine.isUnion p = true) : p.parts = p.unionMembers := by
  cases p with
  | union | enumeration => rfl
  | _ => cases h

/-- A pattern that is no union is its own only member. -/
theorem unionMembers_of_not_isUnion (h : Engine.isUnion p = false) : p.unionMembers = [p] := by
  cases p with
  | union | enumeration => cases h
  | _ => rfl

/-- Only unions resemble unions. -/
theorem Resembles.isUnion_eq (h : Resembles p q) : Engine.isUnion p = Engine.isUnion q := by
  cases h <;> rfl

/-! ## What is offered -/

/-- The names in a pattern that is offered stand for something. -/
theorem Offers.smaller (h : Offers r p q) : q.Everywhere (ResolvedNode r) := by
  induction h with
  | resembles resolved same => exact resolved.of_resembles ResolvedNode.of_resembles same
  | member _ _ _ ih => exact ih
  | standsFor _ _ ih => exact ih

/-- What stands for an offered pattern is offered. -/
theorem Offers.follow (hr : r.Everywhere (ResolvedNode r)) (h : Offers r p q)
    (hq : StandsFor r q t) : Offers r p t := by
  induction h with
  | resembles resolved same =>
    cases hq with
    | lookup =>
      cases same with
      | lookup key same =>
        exact .standsFor (.lookup _ _) (.resembles (resolved.part List.mem_cons_self) same)
    | reference hresolve =>
      cases same
      exact .standsFor (.reference hresolve) (.resembles (hr.resolve hresolve) (.refl t))
  | member union mem _ ih => exact .member union mem (ih hq)
  | standsFor stands _ ih => exact .standsFor stands (ih hq)

/-- The members of an offered union are offered. -/
theorem Offers.of_mem (h : Offers r p q) (hw : w ∈ q.unionMembers) : Offers r p w := by
  induction h with
  | @resembles p q resolved same =>
    cases hq : Engine.isUnion q with
    | false =>
      rw [unionMembers_of_not_isUnion hq] at hw
      exact List.mem_singleton.1 hw ▸ .resembles resolved same
    | true =>
      have hp : Engine.isUnion p = true := same.isUnion_eq.trans hq
      have hparts := same.parts
      rw [parts_of_isUnion hp, parts_of_isUnion hq] at hparts
      obtain ⟨m, hm, hmw⟩ := exists_left_of_forall₂ hparts hw
      exact .member hp hm (.resembles (resolved.part (parts_of_isUnion hp ▸ hm)) hmw)
  | member union mem _ ih => exact .member union mem (ih hw)
  | standsFor stands _ ih => exact .standsFor stands (ih hw)

/-- An offered pattern can be followed as far as no reference is left. -/
theorem Offers.resolved (hr : r.Everywhere (ResolvedNode r)) (h : Offers r p q) :
    ∃ smaller, Engine.resolved q r = .ok smaller ∧ Offers r p smaller := by
  cases q with
  | reference name =>
    obtain ⟨smaller, hsmaller⟩ := h.smaller.here
    exact ⟨smaller, hsmaller, h.follow hr (.reference hsmaller)⟩
  | _ => exact ⟨_, rfl, h⟩

/-- The nullable form of a pattern offers the pattern. -/
theorem offers_nullable (hp : p.Everywhere (ResolvedNode r)) : Offers r (nullable p) p :=
  .member rfl (List.mem_cons_of_mem _ List.mem_cons_self) (.resembles hp (.refl p))

/-- The nullable form of a pattern offers null. -/
theorem offers_nullable_null : Offers r (nullable p) null :=
  .member rfl List.mem_cons_self (.resembles (.leaf trivial rfl) (.refl null))

end

end Pattern

namespace Engine

open Pattern (Offers ResolvedNode Resembles StandsFor)

variable {e : Engine} {r : Resolver} {stack : TypeStack} {p q : Pattern}

/-! ## What offers a pattern does not exclude it -/

/-- The engine fails on no pattern together with one that it offers. -/
def Generous (e : Engine) (r : Resolver) : Prop :=
  ∀ p q stack, Offers r p q → ¬ Fails (e.encompasses p q r r stack)

/-- A pattern is compared with one that it is not followed to before: a reference by the patterns
that both sides stand for, a lookup by its type. -/
theorem not_fails_byKind_of_standsFor {t : Pattern} (he : e.Generous r)
    (hr : r.Everywhere (ResolvedNode r)) (hp : StandsFor r p t) (h : Offers r t q) :
    ¬ Fails (e.encompassesByKind p q r r stack) := by
  cases hp with
  | lookup => exact he _ _ _ h
  | @reference name _ hresolve =>
    obtain ⟨smaller, hsmaller, hoffers⟩ := h.resolved hr
    have hfollowed (stack : TypeStack) : ¬ Fails (e.followed name q r r stack) := by
      unfold followed
      rw [hresolve, hsmaller]
      exact he _ _ _ hoffers
    show ¬ Fails (e.encompassesReference name q r r stack)
    rw [encompassesReference_eq]
    split
    · exact hfollowed _
    · split
      · simp
      · exact hfollowed _

/-- Comparison by the kind of the containing pattern. -/
theorem not_fails_byKind_of_offers (he : e.Generous r) (hsame : e.Reflexive r)
    (hr : r.Everywhere (ResolvedNode r)) (h : Offers r p q)
    (hq : ∀ key type, q ≠ .lookup key type) : ¬ Fails (e.encompassesByKind p q r r stack) := by
  cases h with
  | resembles resolved same =>
    exact not_fails_byKind hsame hr (.of_resembles resolved same) hq
  | @member _ m _ union mem offers =>
    have hmembers {members : List Pattern} {name : String} (hm : m ∈ members) :
        ¬ Fails (e.encompassesUnion members name q r r stack) :=
      not_fails_encompassesUnion fun w hw => ⟨m, hm, he _ _ _ (offers.of_mem hw)⟩
    cases p with
    | union => exact hmembers mem
    | enumeration => exact hmembers mem
    | _ => cases union
  | standsFor stands offers => exact not_fails_byKind_of_standsFor he hr stands offers

/-- A step of comparing fails on nothing that the containing pattern offers. -/
theorem generous_step (he : e.Generous r) (hsame : e.Reflexive r)
    (hr : r.Everywhere (ResolvedNode r)) (h : Offers r p q) :
    ¬ Fails (e.encompassesStep p q r r stack) := by
  unfold encompassesStep
  split
  · exact not_fails_byKind_of_offers he hsame hr h nofun
  · next name _ =>
    obtain ⟨smaller, hsmaller⟩ := h.smaller.here
    rw [hsmaller]
    exact he _ _ _ (h.follow hr (.reference hsmaller))
  · exact he _ _ _ (h.follow hr (.lookup _ _))
  · next hlookup _ =>
    split
    · refine fun hf => ?_
      obtain ⟨w, hw, hf⟩ := fails_all_traverse hf
      exact he _ _ _ (h.of_mem hw) (fails_map_under.1 hf)
    · exact not_fails_byKind_of_offers he hsame hr h hlookup

/-- On every budget the engine fails on no pattern together with one that it offers. -/
theorem generous_ofBudget (hr : r.Everywhere (ResolvedNode r)) (n : Nat) :
    (ofBudget n).Generous r := by
  induction n with
  | zero => exact fun _ _ _ _ => not_fails_none
  | succ n ih => exact fun _ _ _ h => generous_step ih (reflexive_ofBudget hr n) hr h

/-! ## What contains null accepts it -/

/-- A success of the first result is one of the second. -/
def Entails (a b : MatchResult) : Prop :=
  a.isSuccess = true → b.isSuccess = true

/-- Where a comparison with a pattern that has null among its members has ended, a match with null
has ended, and it has found that null is accepted if it is contained. -/
def Absorbs (e : Engine) (mine theirs : Resolver) : Prop :=
  ∀ p q stack, .null ∈ q.unionMembers →
    Extends Entails (e.encompasses p q mine theirs stack) (e.check p .null mine)

variable {mine theirs : Resolver}

/-- Nothing follows from a comparison that fails. -/
theorem extends_of_failure {a b : MatchResult} (h : a.isSuccess = false) :
    Extends Entails (some a) (some b) :=
  .some fun ha => absurd ha (by simp [h])

/-- Where each success is carried over some success is. -/
theorem any_isSuccess_of_entails {as bs : List MatchResult} (h : List.Forall₂ Entails as bs)
    (has : as.any MatchResult.isSuccess = true) : bs.any MatchResult.isSuccess = true := by
  induction h with
  | nil => exact has
  | cons hab _ ih =>
    rw [List.any_cons, Bool.or_eq_true] at has ⊢
    exact has.imp hab ih

/-- A union that contains null by a member accepts it by this member. -/
theorem absorbs_union (he : e.Absorbs mine theirs) {members : List Pattern} {name : String}
    (hq : .null ∈ q.unionMembers) :
    Extends Entails (e.encompassesUnion members name q mine theirs stack)
      (e.checkUnion members .null mine) := by
  intro result hresult
  obtain ⟨results, hresults, hall⟩ := Option.bind_eq_some_iff.1 hresult
  obtain ⟨ofNull, hmem, hnull⟩ := exists_of_traverse? hresults hq
  obtain ⟨attempts, hattempts, hnull⟩ := Option.bind_eq_some_iff.1 hnull
  have hmatches := Extends.traverse?_same (l := members) fun p _ =>
    he p .null stack List.mem_cons_self
  obtain ⟨found, hfound, hrel⟩ := hmatches attempts hattempts
  have hlen := congrArg List.length (traverse?_eq_some_iff.1 hfound)
  refine ⟨_, by rw [checkUnion, hfound]; rfl, fun hsuccess => ?_⟩
  obtain rfl := Option.some.inj hall
  rw [MatchResult.isSuccess_all, List.all_eq_true] at hsuccess
  have hofNull := hsuccess ofNull hmem
  cases hany : attempts.any MatchResult.isSuccess with
  | true => simp [any_isSuccess_of_entails hrel hany]
  | false =>
    -- no member contains null, so the comparison can only succeed for want of members
    have hempty : members = [] := by
      by_contra hne
      have hlength := congrArg List.length (traverse?_eq_some_iff.1 hattempts)
      have hgap := unionGap_fails (q := .null) name (by simpa using hlength.symm) hne hany
      simp only [hany, Bool.false_eq_true, if_false] at hnull
      obtain rfl := Option.some.inj hnull
      split at hofNull <;> simp [hgap] at hofNull
    subst hempty
    obtain rfl := List.eq_nil_of_length_eq_zero (by simpa using hlen.symm)
    rfl

/-- A reference that contains null stands for a pattern that accepts it. -/
theorem absorbs_reference (he : e.Absorbs mine theirs) {name : String}
    (hq : .null ∈ q.unionMembers) :
    Extends Entails (e.encompassesReference name q mine theirs stack)
      (e.checkReference name .null mine) := by
  have hname : identity? q = none ∧ resolved q theirs = .ok q := by
    cases q with
    | reference | object => cases List.mem_singleton.1 hq
    | _ => exact ⟨rfl, rfl⟩
  rw [encompassesReference_eq, hname.1]
  unfold followed checkReference
  rw [hname.2]
  cases mine.resolve name with
  | ok bigger => exact he _ _ _ hq
  | error err =>
    cases err with
    | recursion => exact .some fun hsuccess => hsuccess
    | _ => exact extends_of_failure rfl

/-- The only pattern that is no union and has null as a member is null. -/
theorem eq_null_of_mem (hq : .null ∈ q.unionMembers) (hu : isUnion q = false) : q = .null := by
  rw [Pattern.unionMembers_of_not_isUnion hu] at hq
  exact (List.mem_singleton.1 hq).symm

/-- A pattern of any kind that contains null accepts it. -/
theorem absorbs_byKind (he : e.Absorbs mine theirs) (hq : .null ∈ q.unionMembers)
    (hu : isUnion q = true → takesUnions p = true) :
    Extends Entails (e.encompassesByKind p q mine theirs stack) (e.checkValue p .null mine) := by
  have hnull (hp : takesUnions p = false) : q = .null :=
    eq_null_of_mem hq (Bool.eq_false_iff.2 fun hunion => by simp [hu hunion] at hp)
  cases p with
  | anything => exact .some id
  | reference => exact absorbs_reference he hq
  | lookup => exact he _ _ _ hq
  | union | enumeration => exact absorbs_union he hq
  | scalar s =>
    obtain rfl := hnull rfl
    refine .some fun hsuccess => ?_
    rw [isSuccess_iff] at hsuccess ⊢
    exact Scalar.check_of_encompasses hsuccess rfl
  | _ =>
    obtain rfl := hnull rfl
    exact extends_of_failure rfl

/-- A pattern that contains every member of a union contains null if that is one of them. -/
theorem absorbs_members (he : e.Absorbs mine theirs) (hq : .null ∈ q.unionMembers) :
    Extends Entails (e.encompassesMembers p q mine theirs stack) (e.check p .null mine) := by
  intro result hresult
  obtain ⟨results, hresults, hall⟩ := Option.bind_eq_some_iff.1 hresult
  obtain ⟨ofNull, hmem, hnull⟩ := exists_of_traverse? hresults hq
  obtain ⟨compared, hcompared, rfl⟩ := Option.map_eq_some_iff.1 hnull
  obtain ⟨found, hfound, hentails⟩ := he p .null stack List.mem_cons_self compared hcompared
  refine ⟨found, hfound, fun hsuccess => hentails ?_⟩
  obtain rfl := Option.some.inj hall
  rw [MatchResult.isSuccess_all, List.all_eq_true] at hsuccess
  simpa using hsuccess _ hmem

/-- At every budget what contains null accepts it. -/
theorem absorbs_ofBudget (n : Nat) : (ofBudget n).Absorbs mine theirs := by
  induction n with
  | zero => exact fun _ _ _ _ => .none
  | succ n ih =>
    intro p q stack hq
    show Extends Entails ((ofBudget n).encompassesStep p q mine theirs stack)
      ((ofBudget n).checkValue p .null mine)
    unfold encompassesStep
    split
    · cases List.mem_singleton.1 hq
    · cases List.mem_singleton.1 hq
    · cases List.mem_singleton.1 hq
    · split
      · -- the match with null was made a step before and is made again
        intro result hresult
        obtain ⟨found, hfound, hentails⟩ := absorbs_members ih hq result hresult
        obtain ⟨again, hagain, hagrees⟩ := (ofBudget_below (Nat.le_succ n)).check
          (Value.equal_self .null) (.refl mine) found hfound
        exact ⟨again, hagain, fun hsuccess => hagrees ▸ hentails hsuccess⟩
      · next hu =>
        refine absorbs_byKind ih hq fun hunion => ?_
        simpa [hunion] using hu

end Engine

namespace Pattern

variable {p : Pattern} {r : Resolver} {stack : TypeStack}

/-- A pattern that contains a union with null accepts null. -/
theorem accepts_null_of_encompasses {q : Pattern} {mine theirs : Resolver} {n : Nat}
    (hq : .null ∈ q.unionMembers)
    (h : Succeeds ((Engine.ofBudget n).encompasses p q mine theirs stack)) :
    p.Accepts .null mine := by
  obtain ⟨found, hfound, hentails⟩ := Engine.absorbs_ofBudget n p q stack hq _ h
  exact ⟨n, hfound ▸ succeeds_some.2 (hentails rfl)⟩

/-- The nullable form of a pattern does not exclude the pattern, nor null, and a pattern that
contains its own nullable form accepts null, whatever comparisons are going on. -/
theorem not_excludes_nullable (hr : r.Everywhere (ResolvedNode r))
    (hp : p.Everywhere (ResolvedNode r)) (stack : TypeStack) :
    ¬ (nullable p).Excludes p r r stack ∧ ¬ (nullable p).Excludes null r r stack ∧
      ((∃ n, Succeeds ((Engine.ofBudget n).encompasses p (nullable p) r r stack)) →
        p.Accepts .null r) := by
  refine ⟨?_, ?_, ?_⟩
  · rintro ⟨n, hn⟩
    exact Engine.generous_ofBudget hr n _ _ stack (offers_nullable hp) hn
  · rintro ⟨n, hn⟩
    exact Engine.generous_ofBudget hr n _ _ stack offers_nullable_null hn
  · rintro ⟨n, hn⟩
    exact accepts_null_of_encompasses (q := nullable p) List.mem_cons_self hn

/-- A node of a tree, or anything else. -/
def nodeOrOther : Pattern :=
  .union [.reference "(Node)", .anything] none none

/-- The nullable form of a node or anything else contains it and does not exclude null. It is
contained in turn, so null is accepted. -/
theorem nodeOrOther_accepts_null :
    nodeOrOther.Everywhere (ResolvedNode treeRegistry) ∧
      (nullable nodeOrOther).Contains nodeOrOther treeRegistry treeRegistry ∧
      ¬ (nullable nodeOrOther).Excludes nodeOrOther treeRegistry treeRegistry [] ∧
      ¬ (nullable nodeOrOther).Excludes null treeRegistry treeRegistry [] ∧
      nodeOrOther.Contains (nullable nodeOrOther) treeRegistry treeRegistry ∧
      nodeOrOther.Accepts .null treeRegistry := by
  have hp : nodeOrOther.Everywhere (ResolvedNode treeRegistry) := by
    refine .intro trivial (List.forall_mem_cons.2 ⟨.leaf ⟨_, rfl⟩ rfl, ?_⟩)
    exact List.forall_mem_singleton.2 (.leaf trivial rfl)
  obtain ⟨hself, hnull, haccepts⟩ := not_excludes_nullable treeRegistry_everywhere hp []
  have hcontains : nodeOrOther.Contains (nullable nodeOrOther) treeRegistry treeRegistry :=
    ⟨12, rfl⟩
  exact ⟨hp, ⟨12, rfl⟩, hself, hnull, hcontains, haccepts hcontains⟩

end Pattern

end DataContract
