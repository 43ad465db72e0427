import DataContract.Proofs.Closed.References

/-!
# Depth without recursion

One goes on from a pattern to some of the patterns inside it and, at a name, to what that stands
for. If no registered name is come to from itself like that, then from a pattern one comes only so
far, since what a name stands for is not come to again (`Resolver.shallowBy_of_left`). The depth is
bounded by the weights of the pattern and of the registered patterns, each of which is entered at
most once on a way. So it is with all patterns inside a pattern where no registered name leads back
to itself (`Resolver.NonRecursive.shallow`).
-/

namespace DataContract

/-! ## Weights -/

namespace Pattern

variable {p q : Pattern} {fields : List (String × Pattern)}

/-- An object weighs one more than its fields together. -/
theorem weight_object (layout : Layout) (keys : List (String × Pattern)) (title : Option String) :
    (object layout keys title).weight = 1 + weightOfFields keys :=
  rfl

/-- An exact value weighs one more than the value. -/
theorem weight_exact (v : Value) : (exact v).weight = 1 + v.weight :=
  rfl

/-- No pattern is without weight. -/
theorem weight_pos (p : Pattern) : 0 < p.weight := by
  cases p with
  | scalar | anything | reference => exact Nat.one_pos
  | dictionary | xml | union => exact Nat.add_pos_left (Nat.add_pos_left Nat.one_pos _) _
  | enumeration => exact Nat.add_pos_left (Nat.add_pos_left Nat.two_pos _) _
  | _ => exact Nat.add_pos_left Nat.one_pos _

/-- Dropping fields does not add weight. -/
theorem weightOfFields_le_of_sublist {others : List (String × Pattern)}
    (h : others.Sublist fields) : weightOfFields others ≤ weightOfFields fields := by
  induction h with
  | slnil => exact Nat.le_refl _
  | cons m _ ih =>
    rw [weightOfFields]
    omega
  | cons_cons m _ ih =>
    rw [weightOfFields, weightOfFields]
    omega

/-- Without the entries under a key the others weigh less by the weight of each of these. -/
theorem weight_add_weightOfFields_filter {key : String} (h : (key, p) ∈ fields) :
    p.weight + weightOfFields (fields.filter (·.1 != key)) ≤ weightOfFields fields := by
  induction fields with
  | nil => cases h
  | cons m fields ih =>
    have hothers : weightOfFields (fields.filter (·.1 != key)) ≤ weightOfFields fields :=
      weightOfFields_le_of_sublist List.filter_sublist
    rw [List.filter_cons]
    rcases List.mem_cons.1 h with rfl | h
    · rw [if_neg (by simp), weightOfFields]
      omega
    · have hrest := ih h
      split
      · rw [weightOfFields, weightOfFields]
        omega
      · rw [weightOfFields]
        omega

/-! ## Ways into patterns -/

variable {inside : Pattern → List Pattern} {name : String}

/-- One comes from the pattern to the name, going on to the patterns that `inside` gives. -/
inductive NamesBy (inside : Pattern → List Pattern) : Pattern → String → Prop where
  | here (name : String) : NamesBy inside (.reference name) name
  | step {p q : Pattern} {name : String} (hq : q ∈ inside p) (h : NamesBy inside q name) :
      NamesBy inside p name

/-- A name that one comes to from a pattern is in the pattern. -/
theorem NamesBy.mem_references (h : p.NamesBy inner name) : name ∈ p.references := by
  induction h with
  | here name => exact List.mem_cons_self
  | step hq _ ih => exact mem_references_of_inner hq ih

end Pattern

namespace Resolver

/-- One goes on from the first pattern to the second one, which `inside` gives or which the first
one stands for. -/
def LeadsBy (inside : Pattern → List Pattern) (r : Resolver) (p q : Pattern) : Prop :=
  q ∈ inside p ∨ ∃ name, p = .reference name ∧ r.resolve name = .ok q

/-- One comes from the pattern under the first name to the second one. -/
def RefersBy (inside : Pattern → List Pattern) (r : Resolver) (name next : String) : Prop :=
  ∃ p, r.getPattern name = .ok p ∧ p.NamesBy inside next

/-- The name is come to from the pattern, through the patterns of any number of names. -/
def ReachesBy (inside : Pattern → List Pattern) (r : Resolver) (p : Pattern) (name : String) :
    Prop :=
  ∃ first, p.NamesBy inside first ∧ Relation.ReflTransGen (r.RefersBy inside) first name

end Resolver

namespace Pattern

variable {p : Pattern}

/-- Every way from the pattern by `inside` has fewer steps than the number. -/
def ShallowBy (inside : Pattern → List Pattern) (r : Resolver) : Nat → Pattern → Prop
  | 0, _ => False
  | depth + 1, p => ∀ q, r.LeadsBy inside p q → ShallowBy inside r depth q

/-- Every way from the pattern to other patterns has fewer steps than the number. -/
def Shallow (r : Resolver) : Nat → Pattern → Prop
  | 0, _ => False
  | depth + 1, p => ∀ q, r.Leads p q → Shallow r depth q

/-- A bound on the ways through everything inside a pattern bounds all ways from it. -/
theorem ShallowBy.shallow {r : Resolver} {depth : Nat} (h : p.ShallowBy inner r depth) :
    p.Shallow r depth := by
  induction depth generalizing p with
  | zero => exact h
  | succ depth ih => exact fun q hq => ih (h q hq)

end Pattern

namespace Resolver

open Relation (ReflTransGen TransGen)

variable {inside : Pattern → List Pattern} {r : Resolver} {p q : Pattern} {name next : String}

/-- What a name is followed to is registered under the last of its aliases. -/
theorem exists_last_alias_of_follow {steps : Nat} {seen : List String}
    (h : r.follow steps seen name = .ok q) :
    ∃ last, ReflTransGen r.Aliases name last ∧ r.getPattern last = .ok q := by
  induction steps generalizing seen name with
  | zero => cases h
  | succ steps ih =>
    rw [follow] at h
    split at h
    · cases h
    · split at h
      · cases h
      · next next hnext =>
        obtain ⟨last, hpath, hlast⟩ := ih h
        exact ⟨last, .head hnext hpath, hlast⟩
      · next hq =>
        cases h
        exact ⟨name, .refl, hq⟩

/-- What a name stands for is registered under the last one of its aliases. -/
theorem exists_last_alias_of_resolve (h : r.resolve name = .ok q) :
    ∃ last, ReflTransGen r.Aliases name last ∧ r.getPattern last = .ok q := by
  obtain ⟨last, hpath, hlast⟩ := exists_last_alias_of_follow h
  rcases hpath.cases_head with rfl | ⟨next, halias, hpath⟩
  · exact ⟨name, .refl, getPattern_delimited r name ▸ hlast⟩
  · exact ⟨last, .head ((getPattern_delimited r name).symm.trans halias) hpath, hlast⟩

/-- A name come to from a part is come to from the whole. -/
theorem ReachesBy.of_mem (h : r.ReachesBy inside q name) (hq : q ∈ inside p) :
    r.ReachesBy inside p name := by
  obtain ⟨first, hfirst, hpath⟩ := h
  exact ⟨first, .step hq hfirst, hpath⟩

/-- From what a name stands for one comes on to what follows the name. -/
theorem transGen_of_reachesBy (hpath : ReflTransGen (r.RefersBy inside) name next)
    (hnext : r.getPattern next = .ok q) {target : String} (h : r.ReachesBy inside q target) :
    TransGen (r.RefersBy inside) name target := by
  obtain ⟨first, hfirst, hrest⟩ := h
  have hstep : r.RefersBy inside next first := ⟨q, hnext, hfirst⟩
  exact .trans_right hpath (.head' hstep hrest)

/-- The names that are come to from a pattern are among those that are left, and on the way into the
pattern of a name all that is under this name is left behind. -/
theorem shallowBy_of_left (hinside : ∀ p, ∀ q ∈ inside p, q.weight < p.weight)
    (hr : ∀ name, ¬ TransGen (r.RefersBy inside) name name) {k : Nat}
    (left : List (String × Pattern))
    (hleft : ∀ name q, r.ReachesBy inside p name → r.getPattern name = .ok q →
      (Name.delimited name, q) ∈ left)
    (hk : p.weight + Pattern.weightOfFields left ≤ k) : p.ShallowBy inside r k := by
  induction k generalizing p left with
  | zero =>
    have hpos := p.weight_pos
    omega
  | succ k ih =>
    rintro q (hq | ⟨name, rfl, hq⟩)
    · refine ih left (fun name q' h => hleft name q' (h.of_mem hq)) ?_
      have hlt := hinside p q hq
      omega
    · obtain ⟨last, hpath, hlast⟩ := exists_last_alias_of_resolve hq
      have hpath : ReflTransGen (r.RefersBy inside) name last :=
        ReflTransGen.mono (fun a b halias => ⟨_, halias, .here b⟩) _ _ hpath
      have hreach : r.ReachesBy inside (.reference name) last := ⟨name, .here name, hpath⟩
      have hmem := hleft last q hreach hlast
      refine ih (left.filter (·.1 != Name.delimited last)) (fun a q' ha hq' => ?_) ?_
      · have hnext := transGen_of_reachesBy hpath hlast ha
        have hreach : r.ReachesBy inside (.reference name) a :=
          ⟨name, .here name, hnext.to_reflTransGen⟩
        refine List.mem_filter.2 ⟨hleft a q' hreach hq', bne_iff_ne.2 fun hsame => ?_⟩
        -- the name would lead back to itself
        have hsame : Name.delimited a = Name.delimited last := hsame
        have hback : r.getPattern a = .ok q := by
          rw [← getPattern_delimited, hsame, getPattern_delimited, hlast]
        exact hr a (transGen_of_reachesBy .refl hback ha)
      · have hweight := Pattern.weight_add_weightOfFields_filter hmem
        have hname := (Pattern.reference name).weight_pos
        omega

/-- Where no name is come to from itself, every pattern is shallow. -/
theorem shallowBy_of_weight_le (hinside : ∀ p, ∀ q ∈ inside p, q.weight < p.weight)
    (hr : ∀ name, ¬ TransGen (r.RefersBy inside) name name) {k : Nat}
    (hk : p.weight + r.weight ≤ k) : p.ShallowBy inside r k := by
  refine shallowBy_of_left hinside hr r.registry (fun name q _ hq => mem_of_getPattern hq) ?_
  rw [weight] at hk
  omega

/-! ## No recursion -/

/-- No name leads back to itself through registered patterns. -/
def NonRecursive (r : Resolver) : Prop :=
  ∀ name, ¬ TransGen r.Refers name name

/-- Names that lead to lower names only do not lead back to themselves. -/
theorem not_transGen_of_rank {step : String → String → Prop} (rank : String → Nat)
    (h : ∀ name next, step name next → rank next < rank name) (name : String) :
    ¬ TransGen step name name := by
  have hlower {name next : String} (hpath : TransGen step name next) : rank next < rank name := by
    induction hpath with
    | single hstep => exact h _ _ hstep
    | tail _ hstep ih => exact (h _ _ hstep).trans ih
  exact fun hpath => Nat.lt_irrefl _ (hlower hpath)

/-- What a name stands for is registered under a name that it leads to. -/
theorem exists_last_of_resolve (h : r.resolve name = .ok q) :
    ∃ last, ReflTransGen r.Refers name last ∧ r.getPattern last = .ok q := by
  obtain ⟨last, hpath, hlast⟩ := exists_last_alias_of_resolve h
  have hsteps (a b : String) (halias : r.Aliases a b) : r.Refers a b :=
    ⟨_, halias, List.mem_cons_self⟩
  exact ⟨last, ReflTransGen.mono hsteps _ _ hpath, hlast⟩

/-- A name reached from inside a pattern is reached from the pattern. -/
theorem Reaches.of_inner (h : r.Reaches q name) (hq : q ∈ p.inner) : r.Reaches p name := by
  obtain ⟨first, hfirst, hpath⟩ := h
  exact ⟨first, Pattern.mem_references_of_inner hq hfirst, hpath⟩

/-- From what a name stands for one comes on to what follows the name. -/
theorem transGen_of_reaches (hpath : ReflTransGen r.Refers name next)
    (hnext : r.getPattern next = .ok q) {target : String} (h : r.Reaches q target) :
    TransGen r.Refers name target := by
  obtain ⟨first, hfirst, hrest⟩ := h
  have hstep : r.Refers next first := ⟨q, hnext, hfirst⟩
  exact .trans_right hpath (.head' hstep hrest)

/-- In a registry without recursion every pattern is shallow. -/
theorem NonRecursive.shallow (hr : r.NonRecursive) (p : Pattern) :
    p.Shallow r (p.weight + r.weight) := by
  have hsteps (a b : String) (h : r.RefersBy Pattern.inner a b) : r.Refers a b := by
    obtain ⟨q, hq, hnames⟩ := h
    exact ⟨q, hq, hnames.mem_references⟩
  exact Pattern.ShallowBy.shallow (shallowBy_of_weight_le (fun _ _ => Pattern.weight_lt_of_inner)
    (fun name h => hr name (TransGen.mono hsteps _ _ h)) le_rfl)

end Resolver

end DataContract
