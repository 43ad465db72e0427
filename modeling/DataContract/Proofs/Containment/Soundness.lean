import DataContract.Proofs.Containment.Arrays

/-!
# Containment is sound

What a pattern accepts, a pattern that contains it does not reject
(`Pattern.not_rejects_of_contains`). Registries may be recursive, and a pair of names that comes up
inside its own comparison is taken to be contained, so the proof is by two inductions: over the
budget of the comparison, and inside it over the budget of the match that would reject. Expanding
the name on the containing side costs that match a step; for a shorter match the pair that is put on
the stack is sound by the inner induction (`Engine.StackSound`).
-/

namespace DataContract

namespace Engine

open MatchResult (isSuccess)
open Pattern (BiggerNode SmallerNode)

variable {mine theirs : Resolver} {e : Engine} {stack : TypeStack} {k n : Nat} {p q : Pattern}

/-! ## Exact values, scalars and lists -/

/-- A pattern that accepts a value contains the exact value. -/
theorem soundAt_exact {w : Value} (hm : mine.config.mockMode = false)
    (ht : theirs.config.mockMode = false) (h : Succeeds ((ofBudget n).checkValue p w mine)) :
    SoundAt mine theirs k p (.exact w) := by
  intro v _ ha
  have hv : w.equal v = true := ha.fits ht
  rw [← Pattern.check_succ hm] at h
  exact same_verdict hv (.refl mine) h

/-- A scalar accepts what the scalars and exact values do that it contains. -/
theorem soundAt_scalar {s : Scalar} (hm : mine.config.mockMode = false)
    (ht : theirs.config.mockMode = false)
    (h : (encompassesScalar s q).isSuccess = true) : SoundAt mine theirs k (.scalar s) q := by
  cases q with
  | scalar t =>
    intro v _ ha hf
    have hv : s.check v = .success := Scalar.check_of_encompasses (isSuccess_iff.1 h) (ha.fits ht)
    exact (Pattern.not_rejects_scalar hm).2 hv ⟨k, hf⟩
  | exact w => exact soundAt_exact (n := 0) hm ht (succeeds_some.2 h)
  | _ => exact absurd h (by simp [encompassesScalar, otherKind])

/-- A list accepts what the lists and arrays do whose items it contains. -/
theorem soundAt_list {element : Pattern} {title : Option String}
    (hm : mine.config.mockMode = false) (ht : theirs.config.mockMode = false)
    (hs : (ofBudget n).Sound mine theirs stack k)
    (hp : (Pattern.list element title 0).Everywhere BiggerNode)
    (hq : q.Everywhere (SmallerNode theirs))
    (h : Succeeds ((ofBudget n).encompassesRepeated element q mine theirs stack)) :
    SoundAt mine theirs (k + 1) (.list element title 0) q := by
  have hitems (hkind : (∃ p title min, q = .list p title min) ∨ ∃ elements, q = .array elements) :
      SoundAt mine theirs (k + 1) (.list element title 0) q := by
    intro v hplain ha
    obtain ⟨items, rfl, hitems⟩ :=
      repeated_of_encompassesRepeated ht hs (hp.part List.mem_cons_self) hq hkind h hplain ha
    rw [Pattern.check_succ hm]
    exact not_fails_checkList (Pattern.list element title 0).typeName (Nat.zero_le _) hitems
  cases q with
  | list p title min => exact hitems (.inl ⟨p, title, min, rfl⟩)
  | array elements => exact hitems (.inr ⟨elements, rfl⟩)
  | rest => exact hq.here.1.elim
  | exact w =>
    cases w with
    | array items => exact soundAt_exact (n := n) hm ht h
    | _ => exact absurd (succeeds_some.1 h) (by simp)
  | _ => exact absurd (succeeds_some.1 h) (by simp [otherKind])

/-- An array that is nothing but a repetition that may be empty takes what the list takes. -/
theorem soundAt_array_list {elements : List Pattern} (hm : mine.config.mockMode = false)
    (ht : theirs.config.mockMode = false) (hs : (ofBudget n).Sound mine theirs stack k)
    (hp : (Pattern.array elements).Everywhere BiggerNode)
    (hq : q.Everywhere (SmallerNode theirs)) (hkind : ∃ p title min, q = .list p title min)
    (h : Succeeds ((ofBudget n).encompassesList elements q mine theirs stack)) :
    SoundAt mine theirs (k + 1) (.array elements) q := by
  unfold encompassesList at h
  split at h
  · next element min hsplit =>
    have hrest : (Pattern.splitRest elements).2 = some (element, min) := by rw [hsplit]
    obtain rfl := hp.here.2 element min hrest
    intro v hplain ha
    obtain ⟨items, rfl, hitems⟩ :=
      repeated_of_encompassesRepeated ht hs (hp.last hrest) hq (.inl hkind) h hplain ha
    rw [Pattern.check_succ hm]
    refine not_fails_checkArray ⟨?_, fun i p v hpi hv => ?_⟩
    · simp [Pattern.FitsLength, hsplit]
    · simp only [Pattern.place?, hsplit, List.getElem?_nil, Option.none_or, Option.map_some,
        Option.some.injEq] at hpi
      exact hpi ▸ hitems v (List.mem_of_getElem? hv)
  · exact absurd (succeeds_some.1 h) (by simp)

/-! ## Unions -/

/-- Where no member contains a pattern the union reports a failure. -/
theorem unionGap_fails {members : List Pattern} (name : String) {attempts : List MatchResult}
    (hlen : attempts.length = members.length) (hne : members ≠ [])
    (hfail : attempts.any isSuccess = false) :
    (unionGap members name attempts q).isSuccess = false := by
  have hall {m : MatchResult} (hm : m ∈ attempts) : m.isSuccess = false := by
    simpa using List.any_eq_false.1 hfail m hm
  unfold unionGap
  split
  · exact hall List.mem_cons_self
  · split
    · rfl
    · obtain ⟨p, members, rfl⟩ := List.exists_cons_of_ne_nil hne
      obtain ⟨m, attempts, rfl⟩ := List.exists_cons_of_length_eq_add_one hlen
      simp [hall List.mem_cons_self]

/-- Every member of a contained pattern is contained in some member of the union. -/
theorem succeeds_encompassesUnion {members : List Pattern} {name : String} (hne : members ≠ [])
    (h : Succeeds (e.encompassesUnion members name q mine theirs stack)) :
    ∀ m ∈ q.unionMembers, ∃ p ∈ members, Succeeds (e.encompasses p m mine theirs stack) := by
  intro m hm
  obtain ⟨attempts, hattempts, h⟩ := succeeds_bind.1 (succeeds_all_traverse h m hm)
  have hlen := congrArg List.length (traverse?_eq_some_iff.1 hattempts)
  cases hany : attempts.any isSuccess with
  | true =>
    obtain ⟨result, hr, hs⟩ := List.any_eq_true.1 hany
    obtain ⟨p, hp, he⟩ := exists_of_mem_traverse? hattempts hr
    exact ⟨p, hp, he ▸ succeeds_some.2 hs⟩
  | false =>
    have hgap := unionGap_fails (q := m) name (by simpa using hlen.symm) hne hany
    simp only [hany, Bool.false_eq_true, if_false] at h
    split at h <;> exact absurd (succeeds_some.1 h) (by simp [hgap])

/-- A value that a pattern accepts is accepted by one of its members. -/
theorem exists_accepts_unionMembers {v : Value} (hr : theirs.config.mockMode = false)
    (hq : q.Comparable) (ha : q.Accepts v theirs) : ∃ m ∈ q.unionMembers, m.Accepts v theirs := by
  cases q with
  | union members title text => exact (ha.fits hr).resolve_right hq
  | enumeration shape =>
    exact (ha.fits hr).resolve_right (Pattern.Comparable.nonNull_unionMembers hq rfl)
  | _ => exact ⟨_, List.mem_cons_self, ha⟩

/-- A condition on everything in a pattern holds of its members. -/
theorem everywhere_unionMembers {ok : Pattern → Prop} {m : Pattern} (hq : q.Everywhere ok)
    (hm : m ∈ q.unionMembers) : m.Everywhere ok := by
  cases q with
  | union members title text => exact hq.part hm
  | enumeration shape => exact hq.part hm
  | _ => exact List.mem_singleton.1 hm ▸ hq

/-- A union accepts what a pattern does whose members it contains. -/
theorem soundAt_union {members : List Pattern} {name : String}
    (hr : theirs.config.mockMode = false) (hs : e.Sound mine theirs stack k)
    (hne : members ≠ []) (hp : ∀ p ∈ members, p.Everywhere BiggerNode)
    (hq : q.Everywhere (SmallerNode theirs))
    (h : Succeeds (e.encompassesUnion members name q mine theirs stack)) {v : Value}
    (hplain : v.Plain) (ha : q.Accepts v theirs) :
    ¬ Fails ((ofBudget k).checkUnion members v mine) := by
  obtain ⟨m, hm, ham⟩ := exists_accepts_unionMembers hr hq.here.1 ha
  obtain ⟨p, hpm, he⟩ := succeeds_encompassesUnion hne h m hm
  exact not_fails_checkUnion
    (.inl ⟨p, hpm, hs p m (hp p hpm) (everywhere_unionMembers hq hm) he v hplain ham⟩)

/-- A pattern that contains every member of a union contains the union. -/
theorem soundAt_members (hr : theirs.config.mockMode = false) (hs : e.Sound mine theirs stack k)
    (hp : p.Everywhere BiggerNode) (hq : q.Everywhere (SmallerNode theirs))
    (h : Succeeds (e.encompassesMembers p q mine theirs stack)) : SoundAt mine theirs k p q := by
  intro v hplain ha
  obtain ⟨m, hm, ham⟩ := exists_accepts_unionMembers hr hq.here.1 ha
  have he := succeeds_map_under.1 (succeeds_all_traverse h m hm)
  exact hs p m hp (everywhere_unionMembers hq hm) he v hplain ham

/-! ## References -/

/-- The pairs of names on the stack are sound for matches on the budget and on every smaller one. -/
def StackSound (mine theirs : Resolver) (stack : TypeStack) (k : Nat) : Prop :=
  ∀ a b, (a, b) ∈ stack → ∀ j ≤ k, SoundAt mine theirs j (.reference a) (.reference b)

/-- A sound stack is sound for shorter matches. -/
theorem StackSound.mono {j : Nat} (h : StackSound mine theirs stack k) (hjk : j ≤ k) :
    StackSound mine theirs stack j :=
  fun a b hab i hi => h a b hab i (hi.trans hjk)

/-- A pattern of the contained side that has a name accepts what the name accepts. -/
theorem accepts_identity_iff {name : String} {v : Value} (ht : theirs.config.mockMode = false)
    (hq : q.Everywhere (SmallerNode theirs)) (hid : identity? q = some name) :
    (Pattern.reference name).Accepts v theirs ↔ q.Accepts v theirs := by
  cases q with
  | reference => cases hid; rfl
  | object layout keys title =>
    obtain rfl : title = some name := hid
    exact Pattern.accepts_reference_iff ht
      (Resolver.resolve_of_getPattern (hq.here.2.2 name rfl) nofun)
  | _ => cases hid

/-- What a name is compared by: the patterns that both sides stand for. -/
theorem succeeds_followed {name : String} (hm : mine.AliasFree) (ht : theirs.AliasFree)
    (h : Succeeds (e.followed name q mine theirs stack)) :
    ∃ bigger smaller, mine.resolve name = .ok bigger ∧ resolved q theirs = .ok smaller ∧
      Succeeds (e.encompasses bigger smaller mine theirs stack) := by
  unfold followed at h
  split at h
  · next hr => exact absurd hr (Resolver.not_recursion hm _ _)
  · exact absurd (succeeds_some.1 h) (by simp)
  · next bigger hb =>
    split at h
    · next hr =>
      unfold resolved at hr
      split at hr
      · exact absurd hr (Resolver.not_recursion ht _ _)
      · cases hr
    · exact absurd (succeeds_some.1 h) (by simp)
    · next smaller hsm => exact ⟨bigger, smaller, hb, hsm, h⟩

/-- What a pattern of the contained side accepts, the pattern that it stands for accepts. -/
theorem accepts_resolved {v : Value} {smaller : Pattern} (ht : theirs.config.mockMode = false)
    (hs : resolved q theirs = .ok smaller) (ha : q.Accepts v theirs) :
    smaller.Accepts v theirs := by
  cases q with
  | reference name => exact (Pattern.accepts_reference_iff ht hs).1 ha
  | _ => cases hs; exact ha

/-- A condition on everything that a pattern has holds of what it stands for. -/
theorem everywhere_resolved {smaller : Pattern} {ok : Pattern → Prop} (hr : theirs.Everywhere ok)
    (hq : q.Everywhere ok) (hs : resolved q theirs = .ok smaller) : smaller.Everywhere ok := by
  cases q with
  | reference name => exact hr.resolve hs
  | _ => cases hs; exact hq

/-- A name is sound for matches on a budget if what both sides stand for is so on the budget
before. -/
theorem soundAt_followed {name : String} (hm : mine.Regular BiggerNode)
    (ht : theirs.Regular (SmallerNode theirs)) (hs : e.Sound mine theirs stack k)
    (hq : q.Everywhere (SmallerNode theirs))
    (h : Succeeds (e.followed name q mine theirs stack)) :
    SoundAt mine theirs (k + 1) (.reference name) q := by
  obtain ⟨bigger, smaller, hb, hsm, he⟩ := succeeds_followed hm.aliasFree ht.aliasFree h
  intro v hplain ha
  rw [Pattern.check_succ hm.literal]
  simp only [checkValue, checkReference, hb]
  exact hs bigger smaller (hm.everywhere.resolve hb) (everywhere_resolved ht.everywhere hq hsm) he v
    hplain (accepts_resolved ht.literal hsm ha)

/-- A name is compared with its pair on the stack: for shorter matches the pair is sound by
`before`. -/
theorem soundAt_reference {name : String} (hm : mine.Regular BiggerNode)
    (ht : theirs.Regular (SmallerNode theirs))
    (hs : ∀ k stack, StackSound mine theirs stack k → e.Sound mine theirs stack k)
    (hstack : StackSound mine theirs stack k)
    (before : ∀ j < k, SoundAt mine theirs j (.reference name) q)
    (hq : q.Everywhere (SmallerNode theirs))
    (h : Succeeds (e.encompassesReference name q mine theirs stack)) :
    SoundAt mine theirs k (.reference name) q := by
  cases k with
  | zero => exact soundAt_zero
  | succ k =>
    have hmono := hstack.mono (Nat.le_succ k)
    rw [encompassesReference_eq] at h
    split at h
    · exact soundAt_followed hm ht (hs k stack hmono) hq h
    · next theirName hid =>
      split at h
      · next hmem =>
        intro v hplain ha
        exact hstack name theirName (List.contains_iff_mem.1 hmem) (k + 1) (Nat.le_refl _) v hplain
          ((accepts_identity_iff ht.literal hq hid).2 ha)
      · refine soundAt_followed hm ht (hs k _ ?_) hq h
        intro a b hab j hj
        rcases List.mem_cons.1 hab with hab | hab
        · cases hab
          intro v hplain ha
          exact before j (Nat.lt_succ_of_le hj) v hplain
            ((accepts_identity_iff ht.literal hq hid).1 ha)
        · exact hmono a b hab j hj

/-! ## All patterns -/

/-- Containment by the kind of the containing pattern, one case for each kind. -/
theorem soundAt_byKind (hm : mine.Regular BiggerNode) (ht : theirs.Regular (SmallerNode theirs))
    (hs : ∀ k stack, StackSound mine theirs stack k → (ofBudget n).Sound mine theirs stack k)
    (hstack : StackSound mine theirs stack k) (before : ∀ j < k, SoundAt mine theirs j p q)
    (hp : p.Everywhere BiggerNode) (hq : q.Everywhere (SmallerNode theirs))
    (h : Succeeds ((ofBudget n).encompassesByKind p q mine theirs stack)) :
    SoundAt mine theirs k p q := by
  have hm' := hm.literal
  have ht' := ht.literal
  cases k with
  | zero => exact soundAt_zero
  | succ k =>
    have hsk := hs k stack (hstack.mono (Nat.le_succ k))
    cases p with
    | scalar s => exact soundAt_scalar hm' ht' (succeeds_some.1 h)
    | anything =>
      intro v _ _
      rw [Pattern.check_succ hm']
      simp [checkValue]
    | exact w =>
      cases q with
      | exact w' =>
        have h : (checkExact w w').isSuccess = true := succeeds_some.1 h
        exact soundAt_exact (n := 0) hm' ht' (succeeds_some.2 h)
      | _ => exact absurd (succeeds_some.1 h) (by simp [encompassesExact, otherKind])
    | reference name => exact soundAt_reference hm ht hs hstack before hq h
    | lookup key type =>
      intro v hplain ha
      rw [Pattern.check_succ hm']
      exact hsk type q (hp.part List.mem_cons_self) hq h v hplain ha
    | union members title text =>
      intro v hplain ha
      rw [Pattern.check_succ hm']
      have hne : members ≠ [] := fun hnil => hp.here.1 (by rw [hnil]; rfl)
      exact soundAt_union ht' hsk hne (fun p hpm => hp.part hpm) hq h hplain ha
    | enumeration shape =>
      intro v hplain ha
      rw [Pattern.check_succ hm']
      have hliterals : shape.literals ≠ [] := hp.here.1
      have hne : shape.members ≠ [] := by simp [Enumeration.members, hliterals]
      exact soundAt_union ht' hsk hne (fun p hpm => hp.part hpm) hq h hplain ha
    | object layout keys title =>
      cases q with
      | object => exact soundAt_object hm' ht' hsk hp hq h
      | exact w => exact soundAt_exact (n := n) hm' ht' h
      | _ => exact absurd (succeeds_some.1 h) (by simp [otherKind])
    | array elements =>
      cases q with
      | array theirElements => exact soundAt_array hm' ht' hsk hp hq h
      | list p title min => exact soundAt_array_list hm' ht' hsk hp hq ⟨p, title, min, rfl⟩ h
      | rest => exact hq.here.1.elim
      | exact w => exact soundAt_exact (n := n) hm' ht' h
      | _ => exact absurd (succeeds_some.1 h) (by simp [otherKind])
    | list element title min =>
      obtain rfl : min = 0 := hp.here.2
      exact soundAt_list hm' ht' hsk hp hq h
    | dictionary key value =>
      obtain ⟨s, rfl⟩ := hp.here.1
      cases q with
      | dictionary => exact soundAt_dictionary hm' ht' hsk hp hq h
      | object => exact soundAt_dictionary_object hm' ht' hsk hp hq h
      | exact w => exact soundAt_exact (n := n) hm' ht' h
      | _ => exact absurd (succeeds_some.1 h) (by simp [otherKind])
    | rest | xml | inString | csv => exact hp.here.1.elim

/-- One step of a sound engine is sound for matches on a budget if it is for shorter ones. -/
theorem soundAt_step (hm : mine.Regular BiggerNode) (ht : theirs.Regular (SmallerNode theirs))
    (hs : ∀ k stack, StackSound mine theirs stack k → (ofBudget n).Sound mine theirs stack k)
    (hstack : StackSound mine theirs stack k) (before : ∀ j < k, SoundAt mine theirs j p q)
    (hp : p.Everywhere BiggerNode) (hq : q.Everywhere (SmallerNode theirs))
    (h : Succeeds ((ofBudget n).encompassesStep p q mine theirs stack)) :
    SoundAt mine theirs k p q := by
  unfold encompassesStep at h
  split at h
  · exact soundAt_byKind hm ht hs hstack before hp hq h
  · next name _ =>
    split at h
    · next smaller hsm =>
      intro v hplain ha
      exact hs k stack hstack p smaller hp (ht.everywhere.resolve hsm) h v hplain
        ((Pattern.accepts_reference_iff ht.literal hsm).1 ha)
    · next hr => exact absurd hr (Resolver.not_recursion ht.aliasFree _ _)
    · exact absurd (succeeds_some.1 h) (by simp)
  · next key type =>
    intro v hplain ha
    exact hs k stack hstack p type hp (hq.part List.mem_cons_self) h v hplain
      (ha.fits ht.literal)
  · split at h
    · exact soundAt_members ht.literal (hs k stack hstack) hp hq h
    · exact soundAt_byKind hm ht hs hstack before hp hq h

/-- Every budget compares soundly, given a sound stack. -/
theorem sound_ofBudget (hm : mine.Regular BiggerNode) (ht : theirs.Regular (SmallerNode theirs))
    (n k : Nat) (stack : TypeStack) (hstack : StackSound mine theirs stack k) :
    (ofBudget n).Sound mine theirs stack k := by
  induction n generalizing k stack with
  | zero => exact fun _ _ _ _ h => absurd h not_succeeds_none
  | succ n ih =>
    induction k using Nat.strongRecOn with
    | ind k before =>
      intro p q hp hq h
      exact soundAt_step hm ht ih hstack
        (fun j hj => before j hj (hstack.mono hj.le) p q hp hq h) hp hq h

end Engine

namespace Pattern

/-- A pattern does not reject what a pattern that it contains accepts. -/
theorem not_rejects_of_contains {bigger smaller : Pattern} {mine theirs : Resolver} {v : Value}
    (hm : mine.Regular BiggerNode) (ht : theirs.Regular (SmallerNode theirs))
    (hb : bigger.Everywhere BiggerNode) (hs : smaller.Everywhere (SmallerNode theirs))
    (hv : v.Plain) (hc : bigger.Contains smaller mine theirs) (ha : smaller.Accepts v theirs) :
    ¬ bigger.Rejects v mine := by
  obtain ⟨n, hn⟩ := hc
  rintro ⟨k, hk⟩
  exact Engine.sound_ofBudget hm ht n k [] nofun bigger smaller hb hs hn v hv ha hk

/-- A recursive type with open objects. -/
def openNode : Pattern :=
  .object .json [("...", .anything), ("next?", .reference "(Node)"), ("value", .number)] none

/-- The same type with closed objects and whole numbers. -/
def closedNode : Pattern :=
  .object .json [("next?", .reference "(Node)"), ("value", .scalar (.number .anyInteger))]
    (some "(Node)")

/-- Two nodes. -/
def chain : Value :=
  .object [("next", .object [("value", .number .one)]), ("value", .number .one)]

/-- A node that is open can stand on the containing side. -/
theorem openNode_everywhere : openNode.Everywhere BiggerNode := by
  refine .intro ⟨trivial, rfl⟩ fun q hq => ?_
  obtain rfl | rfl : q = .reference "(Node)" ∨ q = .number := by
    simpa [openNode, parts, declaredKeys, ellipsis] using hq
  · exact .leaf ⟨trivial, trivial⟩ rfl
  · exact .leaf ⟨trivial, trivial⟩ rfl

/-- A node that is closed can stand on the contained side. -/
theorem closedNode_everywhere :
    closedNode.Everywhere (SmallerNode (.register .empty "Node" closedNode)) := by
  refine .intro ⟨trivial, rfl, ?_⟩ fun q hq => ?_
  · rintro _ ⟨rfl⟩
    rfl
  · obtain rfl | rfl : q = .reference "(Node)" ∨ q = .scalar (.number .anyInteger) := by
      simpa [closedNode, parts, declaredKeys, ellipsis] using hq
    · exact .leaf ⟨trivial, trivial⟩ rfl
    · exact .leaf ⟨trivial, trivial⟩ rfl

/-- One name for a pattern that is no alias makes no circle. -/
theorem regular_register {ok : Pattern → Prop} {p : Pattern} (hp : p.Everywhere ok)
    (hn : ∀ n, p ≠ .reference n) : (Resolver.empty.register "Node" p).Regular ok where
  literal := rfl
  aliasFree := by
    refine Resolver.aliasFree_of_forall fun k q hq => ?_
    cases hq with
    | head => exact hn
    | tail _ h => cases h
  everywhere := by
    intro k q hq
    cases hq with
    | head => exact hp
    | tail _ h => cases h

/-- The keys of a chain are in order and carry no mark. -/
theorem chain_plain : chain.Plain := by
  have hnode : Value.Plain (.object [("value", .number .one)]) :=
    .object (by decide) (by decide) (by simp [Value.Plain.number])
  exact .object (by decide) (by decide) (by simp [Value.Plain.number, hnode])

/-- Two nodes are a value of the closed type, which the open type contains, so the open type does
not reject them. -/
theorem chain_not_rejects :
    (reference "(Node)").Contains (reference "(Node)") (.register .empty "Node" openNode)
        (.register .empty "Node" closedNode) ∧
      (reference "(Node)").Accepts chain (.register .empty "Node" closedNode) ∧
      ¬ (reference "(Node)").Rejects chain (.register .empty "Node" openNode) := by
  have hc : (reference "(Node)").Contains (reference "(Node)") (.register .empty "Node" openNode)
      (.register .empty "Node" closedNode) := ⟨12, rfl⟩
  have ha : (reference "(Node)").Accepts chain (.register .empty "Node" closedNode) := ⟨12, rfl⟩
  have hb : (reference "(Node)").Everywhere BiggerNode := .leaf ⟨trivial, trivial⟩ rfl
  have hs : (reference "(Node)").Everywhere (SmallerNode (.register .empty "Node" closedNode)) :=
    .leaf ⟨trivial, trivial⟩ rfl
  exact ⟨hc, ha, not_rejects_of_contains (regular_register openNode_everywhere nofun)
    (regular_register closedNode_everywhere nofun) hb hs chain_plain hc ha⟩

end Pattern

end DataContract
