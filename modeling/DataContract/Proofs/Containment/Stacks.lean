import DataContract.Proofs.Agreement.Containment
import DataContract.Proofs.Closed.Errors
import DataContract.Proofs.Termination.Depth

/-!
# Comparisons without recursion

The stack of a comparison holds the pairs of names whose comparison has begun, and it is looked at
where a reference is compared again. Without recursion no such pair comes up a second time, so the
result depends on the stack only by the names on it that are come to from the containing pattern:
on two stacks without such names it is the same (`Engine.stackFree_ofBudget`).

One lemma for each kind of pattern says that the result depends on the stack through the comparisons
of the patterns inside it. The step puts them together, and at a reference the names on the stack
are still apart from what it stands for.
-/

namespace DataContract

/-! ## Names on the stack -/

namespace Resolver

variable {r : Resolver} {stack : TypeStack} {p q : Pattern} {name theirName : String}

/-- No comparison on the stack began with a name that is come to from the pattern. -/
def Apart (r : Resolver) (stack : TypeStack) (p : Pattern) : Prop :=
  ∀ pair ∈ stack, ¬ r.Reaches p pair.1

/-- An empty stack is apart from every pattern. -/
theorem apart_nil (r : Resolver) (p : Pattern) : r.Apart [] p := by
  intro pair hpair
  cases hpair

/-- A stack is apart from what is inside a pattern from which it is apart. -/
theorem Apart.inner (h : r.Apart stack p) (hq : q ∈ p.inner) : r.Apart stack q :=
  fun pair hpair hreach => h pair hpair (hreach.of_inner hq)

/-- The comparison of a name that is come to has not begun. -/
theorem Apart.not_contains (h : r.Apart stack (.reference name)) :
    stack.contains (name, theirName) = false := by
  rw [← Bool.not_eq_true, List.contains_iff_mem]
  exact fun hmem => h _ hmem ⟨name, List.mem_cons_self, .refl⟩

/-- A stack is apart from what a name stands for from which it is apart. -/
theorem Apart.resolve (h : r.Apart stack (.reference name)) (hq : r.resolve name = .ok q) :
    r.Apart stack q := by
  obtain ⟨last, hpath, hlast⟩ := exists_last_of_resolve hq
  intro pair hpair hreach
  exact h pair hpair
    ⟨name, List.mem_cons_self, (transGen_of_reaches hpath hlast hreach).to_reflTransGen⟩

/-- The name is not come to from what it stands for. -/
theorem Apart.push (hr : r.NonRecursive) (h : r.Apart stack (.reference name))
    (hq : r.resolve name = .ok q) : r.Apart ((name, theirName) :: stack) q := by
  obtain ⟨last, hpath, hlast⟩ := exists_last_of_resolve hq
  refine List.forall_mem_cons.2 ⟨fun hreach => ?_, h.resolve hq⟩
  exact hr name (transGen_of_reaches hpath hlast hreach)

end Resolver

namespace Engine

/-- Comparisons that the pattern contains something give the same results on both stacks. -/
def SameOn (e : Engine) (mine theirs : Resolver) (stack stack' : TypeStack) (p : Pattern) : Prop :=
  ∀ q, e.encompasses p q mine theirs stack = e.encompasses p q mine theirs stack'

variable {e : Engine} {mine theirs : Resolver} {stack stack' : TypeStack} {p q : Pattern}

/-! ## Structures -/

/-- A key is compared by its pattern. -/
theorem encompassesKey_congr (h : e.SameOn mine theirs stack stack' p) (key : String)
    (theirKeys : List (String × Pattern)) :
    e.encompassesKey key p theirKeys mine theirs stack =
      e.encompassesKey key p theirKeys mine theirs stack' := by
  unfold encompassesKey
  simp only [h _]

/-- An object is compared by the patterns of its keys. -/
theorem encompassesObject_congr {keys : List (String × Pattern)}
    (h : ∀ m ∈ keys, e.SameOn mine theirs stack stack' m.2) (title : Option String) :
    e.encompassesObject keys title q mine theirs stack =
      e.encompassesObject keys title q mine theirs stack' := by
  unfold encompassesObject
  split
  · refine congrArg (· >>= fun results => some (MatchResult.all results)) (traverse?_congr ?_)
    exact fun m hm => encompassesKey_congr (h m (List.mem_of_mem_filter hm)) _ _
  · rfl
  · rfl

/-- A repetition is compared by what is repeated. -/
theorem encompassesRepeated_congr (h : e.SameOn mine theirs stack stack' p) :
    e.encompassesRepeated p q mine theirs stack = e.encompassesRepeated p q mine theirs stack' := by
  unfold encompassesRepeated
  simp only [h _]

/-- Elements are compared by the ones at the same places and the repetition. -/
theorem encompassesElements_congr {rest : Option Pattern} {i : Nat} {bigger : List Pattern}
    (hfixed : ∀ p ∈ bigger, e.SameOn mine theirs stack stack' p)
    (hrest : ∀ p, rest = some p → e.SameOn mine theirs stack stack' p) (smaller : List Pattern) :
    e.encompassesElements mine theirs stack rest i bigger smaller =
      e.encompassesElements mine theirs stack' rest i bigger smaller := by
  induction smaller generalizing i bigger with
  | nil => rfl
  | cons q smaller ih =>
    have hlater : e.encompassesElements mine theirs stack rest (i + 1) (bigger.drop 1) smaller =
        e.encompassesElements mine theirs stack' rest (i + 1) (bigger.drop 1) smaller :=
      ih fun p hp => hfixed p (List.mem_of_mem_drop hp)
    rw [encompassesElements, encompassesElements, hlater]
    cases hfirst : bigger.head?.or rest with
    | none => rfl
    | some p =>
      have hp : e.SameOn mine theirs stack stack' p := by
        rcases Option.or_eq_some_iff.1 hfirst with hhead | ⟨-, hlast⟩
        · exact hfixed p (List.mem_of_head? hhead)
        · exact hrest p hlast
      simp only [hp _]

/-- Arrays of fitting lengths are compared by their elements and the repetition. -/
theorem encompassesElementwise_congr {fixed theirFixed : List Pattern}
    {rest theirRest : Option (Pattern × Nat)}
    (hfixed : ∀ p ∈ fixed, e.SameOn mine theirs stack stack' p)
    (hrest : ∀ last, rest = some last → e.SameOn mine theirs stack stack' last.1) :
    e.encompassesElementwise fixed theirFixed rest theirRest mine theirs stack =
      e.encompassesElementwise fixed theirFixed rest theirRest mine theirs stack' := by
  have hlast (p : Pattern) (hp : rest.map (·.1) = some p) :
      e.SameOn mine theirs stack stack' p := by
    obtain ⟨last, hsome, rfl⟩ := Option.map_eq_some_iff.1 hp
    exact hrest last hsome
  unfold encompassesElementwise
  rw [encompassesElements_congr hfixed hlast]
  split
  · next p _ _ _ => simp only [hrest _ rfl _]
  · rfl

/-- Arrays are compared by their lengths, and then by their elements and the repetition. -/
theorem encompassesArrays_congr {elements : List Pattern}
    (hfixed : ∀ p ∈ (Pattern.splitRest elements).1, e.SameOn mine theirs stack stack' p)
    (hrest : ∀ last, (Pattern.splitRest elements).2 = some last →
      e.SameOn mine theirs stack stack' last.1) (theirElements : List Pattern) :
    e.encompassesArrays elements theirElements mine theirs stack =
      e.encompassesArrays elements theirElements mine theirs stack' := by
  unfold encompassesArrays
  dsimp only
  simp only [encompassesElementwise_congr hfixed hrest]

/-- An array is compared with anything by its elements and the repetition. -/
theorem encompassesArray_congr {elements : List Pattern}
    (hfixed : ∀ p ∈ (Pattern.splitRest elements).1, e.SameOn mine theirs stack stack' p)
    (hrest : ∀ last, (Pattern.splitRest elements).2 = some last →
      e.SameOn mine theirs stack stack' last.1) :
    e.encompassesArray elements q mine theirs stack =
      e.encompassesArray elements q mine theirs stack' := by
  have hlist : e.encompassesList elements q mine theirs stack =
      e.encompassesList elements q mine theirs stack' := by
    unfold encompassesList
    split
    · next hsplit => exact encompassesRepeated_congr (hrest _ (congrArg Prod.snd hsplit))
    · rfl
  unfold encompassesArray
  split
  · exact encompassesArrays_congr hfixed hrest _
  · rfl
  · exact hlist
  · exact hlist
  · rfl

/-- A dictionary is compared by the patterns for keys and for values. -/
theorem encompassesDictionary_congr {key value : Pattern}
    (hkey : e.SameOn mine theirs stack stack' key)
    (hvalue : e.SameOn mine theirs stack stack' value) :
    e.encompassesDictionary key value q mine theirs stack =
      e.encompassesDictionary key value q mine theirs stack' := by
  unfold encompassesDictionary
  simp only [hkey _, hvalue _]

/-! ## Unions and references -/

/-- A union is compared by its members. -/
theorem encompassesUnion_congr {members : List Pattern}
    (h : ∀ p ∈ members, e.SameOn mine theirs stack stack' p) (name : String) :
    e.encompassesUnion members name q mine theirs stack =
      e.encompassesUnion members name q mine theirs stack' := by
  have hattempts (member : Pattern) :
      traverse? (fun p => e.encompasses p member mine theirs stack) members =
        traverse? (fun p => e.encompasses p member mine theirs stack') members :=
    traverse?_congr fun p hp => h p hp member
  unfold encompassesUnion
  simp only [hattempts]

/-- The members of a union are compared one by one with the same pattern. -/
theorem encompassesMembers_congr (h : e.SameOn mine theirs stack stack' p) :
    e.encompassesMembers p q mine theirs stack = e.encompassesMembers p q mine theirs stack' := by
  unfold encompassesMembers
  simp only [h _]

/-- A name is compared by what it stands for. -/
theorem followed_congr {name : String}
    (h : ∀ p, mine.resolve name = .ok p → e.SameOn mine theirs stack stack' p) :
    e.followed name q mine theirs stack = e.followed name q mine theirs stack' := by
  unfold followed
  split
  · rfl
  · rfl
  · next bigger hbigger => simp only [h bigger hbigger _]

/-- Comparisons with a grounded pattern give the same results on stacks that it is apart from. -/
def StackFree (e : Engine) (mine theirs : Resolver) : Prop :=
  ∀ p stack stack', p.Grounded mine → mine.Apart stack p → mine.Apart stack' p →
    e.SameOn mine theirs stack stack' p

/-- The pair of a reference is on neither stack, and it is put on both. -/
theorem StackFree.encompassesReference (he : e.StackFree mine theirs) (hr : mine.NonRecursive)
    {name : String} (hname : (Pattern.reference name).Grounded mine)
    (h : mine.Apart stack (.reference name))
    (h' : mine.Apart stack' (.reference name)) :
    e.encompassesReference name q mine theirs stack =
      e.encompassesReference name q mine theirs stack' := by
  rw [encompassesReference_eq, encompassesReference_eq]
  split
  · exact followed_congr fun p hp => he p _ _ (hname.of_resolve hp) (h.resolve hp) (h'.resolve hp)
  · rw [h.not_contains, h'.not_contains]
    exact followed_congr fun p hp =>
      he p _ _ (hname.of_resolve hp) (h.push hr hp) (h'.push hr hp)

/-! ## All patterns -/

/-- A comparison by kind asks about patterns from which both stacks are still apart. -/
theorem StackFree.encompassesByKind (he : e.StackFree mine theirs) (hr : mine.NonRecursive)
    (hp : p.Grounded mine) (h : mine.Apart stack p) (h' : mine.Apart stack' p) :
    e.encompassesByKind p q mine theirs stack = e.encompassesByKind p q mine theirs stack' := by
  have hinner {p' : Pattern} (hm : p' ∈ p.inner) : e.SameOn mine theirs stack stack' p' :=
    he p' _ _ (hp.inside hm) (h.inner hm) (h'.inner hm)
  cases p with
  | scalar | anything | exact => rfl
  | object layout keys title =>
    exact encompassesObject_congr (fun m hm => hinner (List.mem_map_of_mem hm)) title
  | array elements =>
    refine encompassesArray_congr (fun p hp => hinner (Pattern.mem_of_mem_splitRest hp)) ?_
    rintro ⟨p, min⟩ hrest
    have hmem := Pattern.rest_mem_of_splitRest hrest
    exact he p _ _ (hp.last hrest) ((h.inner hmem).inner List.mem_cons_self)
      ((h'.inner hmem).inner List.mem_cons_self)
  | list | rest => exact encompassesRepeated_congr (hinner List.mem_cons_self)
  | dictionary key value =>
    exact encompassesDictionary_congr (hinner List.mem_cons_self)
      (hinner (List.mem_cons_of_mem _ List.mem_cons_self))
  | xml shape => exact absurd rfl (hp.ne_xml shape)
  | union members title text => exact encompassesUnion_congr (fun p hp => hinner hp) _
  | enumeration shape => exact encompassesUnion_congr (fun p hp => hinner hp) _
  | reference name => exact he.encompassesReference hr hp h h'
  | lookup key type => exact hinner List.mem_cons_self _
  | inString type =>
    unfold Engine.encompassesByKind encompassesInString
    simp only [hinner List.mem_cons_self _]
  | csv item =>
    unfold Engine.encompassesByKind encompassesCsv
    simp only [hinner List.mem_cons_self _]

/-- A step of comparing keeps the result free of stacks that are apart. -/
theorem StackFree.encompassesStep (he : e.StackFree mine theirs) (hr : mine.NonRecursive)
    (hp : p.Grounded mine) (h : mine.Apart stack p) (h' : mine.Apart stack' p) :
    e.encompassesStep p q mine theirs stack = e.encompassesStep p q mine theirs stack' := by
  have hself := he p stack stack' hp h h'
  unfold Engine.encompassesStep
  split
  · exact he.encompassesByKind hr hp h h'
  · simp only [hself _]
  · exact hself _
  · rw [encompassesMembers_congr hself, he.encompassesByKind hr hp h h']

/-- At every budget the result is the same on all stacks that are apart from the containing
pattern. -/
theorem stackFree_ofBudget (hr : mine.NonRecursive) (n : Nat) :
    (ofBudget n).StackFree mine theirs := by
  induction n with
  | zero => exact fun _ _ _ _ _ _ _ => rfl
  | succ n ih => exact fun p _ _ hp h h' _ => ih.encompassesStep hr hp h h'

end Engine

end DataContract
