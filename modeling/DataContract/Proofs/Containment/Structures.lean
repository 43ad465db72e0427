import DataContract.Containment
import DataContract.Proofs.Acceptance
import DataContract.Proofs.Everywhere
import DataContract.Proofs.Ranges

/-!
# Containment of structures is sound

A comparison of two structures that succeeds has compared the patterns at every place at which both
have one. Each theorem here takes one kind of structure: if what the engine says of the parts can be
trusted for matches on a budget (`Engine.Sound`), then what it says of the structures can be
trusted for matches on the next budget.

The containing side has objects that admit undeclared keys and repetitions that may be empty; the
contained side has objects that admit only what they declare.
-/

namespace DataContract

/-! ## Direct patterns -/

namespace Pattern

section
variable {mine theirs : Resolver} {p q : Pattern}

/-- A comparison neither follows the pattern nor takes it apart on the contained side. -/
def Direct : Pattern → Prop
  | .reference _ => False
  | .lookup _ _ => False
  | .union _ _ _ => False
  | .enumeration _ => False
  | _ => True

/-- A pattern that is taken as it is has itself as its only member. -/
theorem Direct.unionMembers (h : q.Direct) : q.unionMembers = [q] := by
  cases q with
  | union | enumeration => exact h.elim
  | _ => rfl

/-- A pattern that is taken as it is stands for itself. -/
theorem Direct.resolved (h : q.Direct) (r : Resolver) : Engine.resolved q r = .ok q := by
  cases q with
  | reference => exact h.elim
  | _ => rfl

/-- A pattern that is taken as it is on the contained side is compared by the kind of the containing
one. -/
theorem Direct.encompassesStep (h : q.Direct) (e : Engine) (stack : TypeStack) :
    e.encompassesStep p q mine theirs stack = e.encompassesByKind p q mine theirs stack := by
  unfold Engine.encompassesStep
  split
  · rfl
  · exact h.elim
  · exact h.elim
  · cases q with
    | union | enumeration => exact h.elim
    | _ => rfl

/-- A direct pattern is contained in a way that the kind of the containing one has. -/
theorem Contains.byKind (h : p.Contains q mine theirs) (hq : q.Direct) :
    ∃ n, Succeeds ((Engine.ofBudget n).encompassesByKind p q mine theirs []) := by
  obtain ⟨n, hn⟩ := h
  cases n with
  | zero => exact absurd hn not_succeeds_none
  | succ n =>
    have hn : Succeeds ((Engine.ofBudget n).encompassesStep p q mine theirs []) := hn
    exact ⟨n, hq.encompassesStep _ [] ▸ hn⟩

end

/-! ## The two sides -/

/-- The pattern is of a kind for which containment says something about values. -/
def Comparable : Pattern → Prop
  | .rest .. => False
  | .xml _ => False
  | .inString _ => False
  | .csv _ => False
  | .dictionary key _ => ∃ s, key = .scalar s
  | .union members _ _ => nonNull members ≠ []
  | .enumeration shape => shape.literals ≠ []
  | _ => True

/-- A repetition is not comparable outside of an array. -/
theorem Comparable.isRest {p : Pattern} (h : p.Comparable) : p.isRest = false := by
  cases p with
  | rest => exact h.elim
  | _ => rfl

/-- A pattern of the containing side: objects are open and repetitions may be empty. -/
def BiggerNode (p : Pattern) : Prop :=
  p.Comparable ∧
    match p with
    | .object _ keys _ => isOpen keys = true
    | .list _ _ min => min = 0
    | .array elements => ∀ q min, (splitRest elements).2 = some (q, min) → min = 0
    | _ => True

/-- A pattern of the contained side: objects are closed, and one with a title is what is registered
under it. -/
def SmallerNode (theirs : Resolver) (p : Pattern) : Prop :=
  p.Comparable ∧
    match p with
    | .object _ keys title =>
      isOpen keys = false ∧ ∀ name, title = some name → theirs.getPattern name = .ok p
    | _ => True

/-- A comparable union has members other than null. -/
theorem Comparable.nonNull_unionMembers {p : Pattern} (h : p.Comparable)
    (hu : Engine.isUnion p = true) : nonNull p.unionMembers ≠ [] := by
  cases p with
  | union members title text => exact h
  | enumeration shape =>
    obtain ⟨v, literals, he⟩ := List.exists_cons_of_ne_nil h
    simp [unionMembers, Enumeration.members, nonNull, he, isNull]
  | _ => cases hu

end Pattern

/-- The keys of objects in the value are in order, as those of every object are, and none ends in
the mark of an optional key. -/
inductive Value.Plain : Value → Prop where
  | null : Plain .null
  | boolean (b : Bool) : Plain (.boolean b)
  | number (d : Decimal) : Plain (.number d)
  | string (s : String) : Plain (.string s)
  | object {members : List (String × Value)} (ordered : Fields.Ordered members)
      (unmarked : ∀ m ∈ members, Key.isOptional m.1 = false)
      (values : ∀ m ∈ members, Plain m.2) : Plain (.object members)
  | array {items : List Value} (values : ∀ v ∈ items, Plain v) : Plain (.array items)
  | xml (name : String) (attributes : List (String × String)) (children : List Value) :
      Plain (.xml name attributes children)

/-- A resolver that takes values as they are, without circles of references, whose registered
patterns satisfy a condition everywhere. -/
structure Resolver.Regular (ok : Pattern → Prop) (r : Resolver) : Prop where
  literal : r.config.mockMode = false
  aliasFree : r.AliasFree
  everywhere : r.Everywhere ok

/-! ## Trust -/

section
variable (mine theirs : Resolver)

/-- No match on the budget rejects under the first pattern what the second one accepts. -/
def SoundAt (k : Nat) (p q : Pattern) : Prop :=
  ∀ v : Value, v.Plain → q.Accepts v theirs → ¬ Fails ((Engine.ofBudget k).check p v mine)

/-- What the engine finds contained is so, as far as matches on the budget tell. -/
def Engine.Sound (e : Engine) (stack : TypeStack) (k : Nat) : Prop :=
  ∀ p q : Pattern, p.Everywhere Pattern.BiggerNode → q.Everywhere (Pattern.SmallerNode theirs) →
    Succeeds (e.encompasses p q mine theirs stack) → SoundAt mine theirs k p q

end

namespace Engine

open Pattern (BiggerNode SmallerNode FitsObject FitsArray FitsLength place? splitRest)

variable {mine theirs : Resolver} {e : Engine} {stack : TypeStack} {k n : Nat} {p q : Pattern}

/-- Without budget no match rejects anything. -/
theorem soundAt_zero : SoundAt mine theirs 0 p q :=
  fun _ _ _ => not_fails_none

/-! ## Objects -/

/-- What a comparison has found out about a declared key. -/
theorem succeeds_encompassesKey {key : String} {theirKeys : List (String × Pattern)}
    (h : Succeeds (e.encompassesKey key p theirKeys mine theirs stack)) :
    (Pattern.keyNamed? theirKeys (Key.base key) = none ∧ Key.isOptional key = true) ∨
      ∃ theirKey q, Pattern.keyNamed? theirKeys (Key.base key) = some (theirKey, q) ∧
        (Key.isOptional theirKey = true → Key.isOptional key = true) ∧
        Succeeds (e.encompasses p q mine theirs stack) := by
  unfold encompassesKey at h
  dsimp only at h
  split at h
  · next hnone =>
    split at h
    · next ho => exact .inl ⟨hnone, ho⟩
    · exact absurd (succeeds_some.1 h) (by simp)
  · next theirKey q hsome =>
    split at h
    · exact absurd (succeeds_some.1 h) (by simp)
    · next ho =>
      refine .inr ⟨theirKey, q, hsome, fun ht => ?_, succeeds_map_under.1 h⟩
      simpa [ht] using ho

/-- The key with a name that has no mark has this name as its base name. -/
theorem base_of_keyNamed? {keys : List (String × Pattern)} {name key : String}
    (hu : Key.isOptional name = false) (hk : Pattern.keyNamed? keys name = some (key, q)) :
    Key.base key = name := by
  rcases (Pattern.keyNamed?_eq_some hk).2 with rfl | rfl
  · exact Key.base_of_mandatory hu
  · exact Key.base_optional name

/-- What an object of the contained side takes under a name that stands in the value. -/
theorem accepts_keyNamed {keys : List (String × Pattern)} {members : List (String × Value)}
    {name key : String} {v : Value} (hc : Pattern.isOpen keys = false)
    (hfits : FitsObject keys members fun p v => p.Accepts v theirs)
    (hu : ∀ m ∈ members, Key.isOptional m.1 = false)
    (hk : Pattern.keyNamed? keys name = some (key, q))
    (hv : Fields.get? members name = some v) : q.Accepts v theirs := by
  have hbase := base_of_keyNamed? (hu _ (Fields.mem_of_get? hv)) hk
  have hdecl := Pattern.mem_declaredKeys_of_keyNamed? hc hk
  exact hfits.values (name, q, v) (mem_presentKeys.2 ⟨key, hdecl, hbase, hbase ▸ hv⟩)

/-- An object accepts what an object does whose keys it contains. -/
theorem soundAt_object {layout layout' : Layout} {keys theirKeys : List (String × Pattern)}
    {title title' : Option String} (hm : mine.config.mockMode = false)
    (ht : theirs.config.mockMode = false) (hs : e.Sound mine theirs stack k)
    (hp : (Pattern.object layout keys title).Everywhere BiggerNode)
    (hq : (Pattern.object layout' theirKeys title').Everywhere (SmallerNode theirs))
    (h : Succeeds (e.encompassesObject keys title (.object layout' theirKeys title')
      mine theirs stack)) :
    SoundAt mine theirs (k + 1) (.object layout keys title) (.object layout' theirKeys title') := by
  intro v hplain ha
  obtain ⟨members, rfl, hfits⟩ := ha.fits ht
  have hkeys := succeeds_all_traverse h
  obtain ⟨-, hopen⟩ := hp.here
  obtain ⟨-, hclosed, -⟩ := hq.here
  cases hplain with
  | object ordered unmarked values => ?_
  rw [Pattern.check_succ hm]
  refine not_fails_checkObject title ⟨unexpectedKeys_of_isOpen hopen, ?_, ?_⟩
  · refine missingKeys_eq_nil_iff.2 fun key p hk hmandatory => ?_
    rcases succeeds_encompassesKey (hkeys _ hk) with ⟨-, ho⟩ | ⟨theirKey, q, hsome, ho, -⟩
    · exact absurd ho (Bool.eq_false_iff.1 hmandatory)
    · obtain ⟨hg, hname⟩ := Pattern.keyNamed?_eq_some hsome
      have hbase := Key.base_of_mandatory hmandatory
      rw [hbase] at hname ⊢
      have htheirs : Key.isOptional theirKey = false := by
        rw [← Bool.not_eq_true]
        exact fun hopt => Bool.eq_false_iff.1 hmandatory (ho hopt)
      obtain rfl : theirKey = key := by
        rcases hname with hname | rfl
        · exact hname
        · rw [Key.isOptional_optional] at htheirs
          cases htheirs
      have hdecl := Pattern.mem_declaredKeys.2
        ⟨Fields.mem_of_get? hg, (Pattern.mem_declaredKeys.1 hk).2⟩
      have := missingKeys_eq_nil_iff.1 hfits.present theirKey q hdecl htheirs
      rwa [hbase] at this
  · rintro ⟨name, p, v⟩ hpart
    obtain ⟨key, hk, hbase, hg⟩ := mem_presentKeys.1 hpart
    have hmem := Fields.mem_of_get? hg
    obtain ⟨theirKey, q, hnamed⟩ := keyNamed?_of_unexpectedKeys hclosed hfits.declared
      (List.mem_map.2 ⟨_, hmem, rfl⟩)
    rcases succeeds_encompassesKey (hkeys _ hk) with ⟨hnone, -⟩ | ⟨_, _, hsome, -, he⟩
    · rw [hnone] at hnamed
      cases hnamed
    · have hdecl := Pattern.mem_declaredKeys_of_keyNamed? hclosed hsome
      exact hs p _ (hp.key hk) (hq.key hdecl) he v (values _ hmem)
        (accepts_keyNamed hclosed hfits unmarked hsome hg)

/-! ## Dictionaries -/

/-- The engine compares scalars by their bounds. -/
theorem encompasses_of_succeeds_scalar {s t : Scalar}
    (h : Succeeds ((ofBudget n).encompasses (.scalar s) (.scalar t) mine theirs stack)) :
    s.encompasses t = .success := by
  cases n with
  | zero => exact absurd h not_succeeds_none
  | succ n => exact Option.some.inj h

/-- Dictionaries compare with success by their keys and their values. -/
theorem succeeds_encompassesDictionary {key value theirKey theirValue : Pattern}
    (h : Succeeds (e.encompassesDictionary key value (.dictionary theirKey theirValue)
      mine theirs stack)) :
    Succeeds (e.encompasses key theirKey mine theirs stack) ∧
      Succeeds (e.encompasses value theirValue mine theirs stack) := by
  obtain ⟨ofKey, hkey, h⟩ := succeeds_bind.1 h
  obtain ⟨ofValue, hvalue, h⟩ := succeeds_bind.1 h
  have hall : (MatchResult.all _).isSuccess = true := succeeds_some.1 h
  simp only [MatchResult.isSuccess_all, List.all_cons, List.all_nil, Bool.and_true,
    Bool.and_eq_true] at hall
  exact ⟨hkey ▸ succeeds_some.2 hall.1, hvalue ▸ succeeds_some.2 hall.2⟩

/-- An object is contained in a dictionary key by key. -/
theorem succeeds_encompassesDictionary_object {key value : Pattern} {layout : Layout}
    {theirKeys : List (String × Pattern)} {title : Option String} {theirKey : String}
    (h : Succeeds (e.encompassesDictionary key value (.object layout theirKeys title)
      mine theirs stack)) (hq : (theirKey, q) ∈ Pattern.declaredKeys theirKeys) :
    e.Reads mine key (Key.base theirKey) ∧
      Succeeds (e.encompasses value q mine theirs stack) := by
  obtain ⟨ofKey, hkey, h⟩ := succeeds_bind.1 (succeeds_all_traverse h _ hq)
  obtain ⟨ofValue, hvalue, h⟩ := succeeds_bind.1 h
  have hall : ((MatchResult.all _).under _).isSuccess = true := succeeds_some.1 h
  simp only [MatchResult.isSuccess_under, MatchResult.isSuccess_all, List.all_cons, List.all_nil,
    Bool.and_true, Bool.and_eq_true] at hall
  exact ⟨succeeds_checkKey (hkey ▸ succeeds_some.2 hall.1), hvalue ▸ succeeds_some.2 hall.2⟩

/-- Scalar keys: what the contained side reads, the containing side does not refuse. -/
theorem not_refuses_of_encompasses {s t : Scalar} {text : String}
    (hst : s.encompasses t = .success) (ht : Pattern.Reads (.scalar t) text theirs) :
    ¬ (ofBudget n).Refuses mine (.scalar s) text := by
  obtain ⟨v, hv⟩ := Pattern.reads_scalar ht
  exact fun hr => Pattern.not_refuses_scalar (Scalar.parse_of_encompasses hst hv) ⟨n, hr⟩

/-- A dictionary accepts what a dictionary does whose keys and values it contains. -/
theorem soundAt_dictionary {s : Scalar} {value theirKey theirValue : Pattern}
    (hm : mine.config.mockMode = false) (ht : theirs.config.mockMode = false)
    (hs : (ofBudget n).Sound mine theirs stack k)
    (hp : (Pattern.dictionary (.scalar s) value).Everywhere BiggerNode)
    (hq : (Pattern.dictionary theirKey theirValue).Everywhere (SmallerNode theirs))
    (h : Succeeds ((ofBudget n).encompassesDictionary (.scalar s) value
      (.dictionary theirKey theirValue) mine theirs stack)) :
    SoundAt mine theirs (k + 1) (.dictionary (.scalar s) value)
      (.dictionary theirKey theirValue) := by
  obtain ⟨t, rfl⟩ := hq.here.1
  obtain ⟨hkey, hvalue⟩ := succeeds_encompassesDictionary h
  have hsound :=
    hs _ _ (hp.part (by simp [Pattern.parts])) (hq.part (by simp [Pattern.parts])) hvalue
  intro v hplain ha
  obtain ⟨members, rfl, hmembers⟩ := ha.fits ht
  cases hplain with
  | object ordered unmarked values =>
    rw [Pattern.check_succ hm]
    refine not_fails_checkDictionary fun m hmem => ⟨?_, ?_⟩
    · exact not_refuses_of_encompasses (encompasses_of_succeeds_scalar hkey) (hmembers m hmem).1
    · exact hsound _ (values m hmem) (hmembers m hmem).2

/-- An object with closed keys has no other keys than those that the dictionary has read. -/
theorem soundAt_dictionary_object {key value : Pattern} {layout : Layout}
    {theirKeys : List (String × Pattern)} {title : Option String}
    (hm : mine.config.mockMode = false) (ht : theirs.config.mockMode = false)
    (hs : (ofBudget n).Sound mine theirs stack k)
    (hp : (Pattern.dictionary key value).Everywhere BiggerNode)
    (hq : (Pattern.object layout theirKeys title).Everywhere (SmallerNode theirs))
    (h : Succeeds ((ofBudget n).encompassesDictionary key value (.object layout theirKeys title)
      mine theirs stack)) :
    SoundAt mine theirs (k + 1) (.dictionary key value) (.object layout theirKeys title) := by
  intro v hplain ha
  obtain ⟨members, rfl, hfits⟩ := ha.fits ht
  obtain ⟨-, hclosed, -⟩ := hq.here
  cases hplain with
  | object ordered unmarked values =>
    rw [Pattern.check_succ hm]
    refine not_fails_checkDictionary fun m hmem => ?_
    obtain ⟨theirKey, q, hnamed⟩ := keyNamed?_of_unexpectedKeys hclosed hfits.declared
      (List.mem_map.2 ⟨m, hmem, rfl⟩)
    have hdecl := Pattern.mem_declaredKeys_of_keyNamed? hclosed hnamed
    obtain ⟨hreads, hvalue⟩ := succeeds_encompassesDictionary_object h hdecl
    constructor
    · rw [base_of_keyNamed? (unmarked m hmem) hnamed] at hreads
      exact fun hr => Pattern.Reads.not_refuses ⟨n, hreads⟩ (.refl mine) ⟨k, hr⟩
    · exact hs value q (hp.part (by simp [Pattern.parts])) (hq.key hdecl) hvalue _ (values m hmem)
        (accepts_keyNamed hclosed hfits unmarked hnamed (Fields.get?_of_mem ordered.nodup hmem))

end Engine

end DataContract
