import DataContract.Proofs.Agreement.Containment
import DataContract.Proofs.Termination.Budget
import DataContract.Proofs.Termination.Guarded

/-!
# Comparing with a pattern without names ends

A recursive type can be unfolded for ever, and the stack of a comparison only stops it where the
other side has a name, too. But if there are no names on the contained side, its patterns get
lighter whenever the containing side goes on to a part of a structure, and between these there are
only so many open parts if recursion is guarded (`Pattern.exists_encompasses_of_guarded`). Exact
values of the contained side are handed over to matching, which goes on with their weights.
-/

namespace DataContract

open Pattern (openParts Local)

/-! ## Patterns without names -/

namespace Pattern

variable {p q member : Pattern}

/-- The members of a union, however nested, have no names either and are no heavier than the
union. -/
theorem weight_le_of_mem_unionMembers (hq : q.Throughout Local) (h : member ∈ q.unionMembers) :
    member.Throughout Local ∧ member.weight ≤ q.weight := by
  cases q with
  | union | enumeration => exact ⟨hq.inside h, (weight_lt_of_inner h).le⟩
  | _ =>
    obtain rfl := List.mem_singleton.1 h
    exact ⟨hq, le_rfl⟩

end Pattern

namespace Engine

variable {e : Engine} {mine theirs : Resolver} {stack : TypeStack} {p q key value : Pattern}
  {weight : Nat}

/-- The questions have been answered that come up where the pattern is compared with one of at most
the weight: besides those about exact values, the comparisons of what one comes to openly, and
those with lighter patterns of the parts and of the pattern itself. -/
structure ComparesInside (e : Engine) (mine theirs : Resolver) (p : Pattern) (weight : Nat) : Prop
    extends e.AnswersInside mine p weight where
  compare {p' q : Pattern} {stack : TypeStack} (hp : mine.LeadsBy openParts p p')
    (hq : q.Throughout Local) (hw : q.weight ≤ weight) :
    Answered (e.encompasses p' q mine theirs stack)
  comparePart {p' q : Pattern} {stack : TypeStack} (hp : p' ∈ p.parts)
    (hq : q.Throughout Local) (hw : q.weight < weight) :
    Answered (e.encompasses p' q mine theirs stack)
  compareLighter {q : Pattern} {stack : TypeStack} (hq : q.Throughout Local)
    (hw : q.weight < weight) : Answered (e.encompasses p q mine theirs stack)

/-! ## Comparing structures -/

/-- Comparing under a key is answered where comparing with every field of the other object is. -/
theorem answered_encompassesKey {theirKeys : List (String × Pattern)}
    (h : ∀ m ∈ theirKeys, Answered (e.encompasses p m.2 mine theirs stack)) (key : String) :
    Answered (e.encompassesKey key p theirKeys mine theirs stack) := by
  unfold encompassesKey
  dsimp only
  split
  · split
    · exact .some _
    · exact .some _
  · next hnamed =>
    split
    · exact .some _
    · have hmem := Fields.mem_of_get? (Pattern.keyNamed?_eq_some hnamed).1
      exact (h _ hmem).map _

/-- A repetition asks about the items of exact arrays and the elements of the others. -/
theorem answered_encompassesRepeated (hq : q.Throughout Local) (hw : q.weight ≤ weight)
    (hcheck : ∀ item : Value, item.weight < weight → Answered (e.check p item mine))
    (hcompare : ∀ q : Pattern, q.Throughout Local → q.weight < weight →
      Answered (e.encompasses p q mine theirs stack)) :
    Answered (e.encompassesRepeated p q mine theirs stack) := by
  have hinner {q' : Pattern} (hq' : q' ∈ q.inner) :
      q'.Throughout Local ∧ q'.weight < weight :=
    ⟨hq.inside hq', (Pattern.weight_lt_of_inner hq').trans_le hw⟩
  unfold encompassesRepeated
  split
  · obtain ⟨hlocal, hlight⟩ := hinner List.mem_cons_self
    exact hcompare _ hlocal hlight
  · obtain ⟨hlocal, hlight⟩ := hinner List.mem_cons_self
    exact hcompare _ hlocal hlight
  · refine .traverse_bind (fun a ha => Answered.map ?_ _) fun _ => .some _
    obtain ⟨hlocal, hlight⟩ := hinner (List.fst_mem_of_mem_zipIdx ha)
    obtain ⟨q', i⟩ := a
    dsimp only at hlocal hlight ⊢
    split
    · next inner min =>
      have hlt : inner.weight < (Pattern.rest inner min).weight :=
        Pattern.weight_lt_of_inner List.mem_cons_self
      exact hcompare _ (hlocal.inside List.mem_cons_self) (hlt.trans hlight)
    · exact hcompare _ hlocal hlight
  · split
    · refine answered_checkItems _ fun item hitem => hcheck item ?_
      have hlt := Value.weight_lt_of_mem_items hitem
      rw [Pattern.weight_exact] at hw
      omega
    · exact .some _
  · exact .some _

/-- Comparing elements from a place on is answered where each two that may meet are. -/
theorem answered_encompassesElements {rest : Option Pattern} {i : Nat}
    {bigger smaller : List Pattern}
    (hrest : ∀ p ∈ rest, ∀ q ∈ smaller, Answered (e.encompasses p q mine theirs stack))
    (h : ∀ p ∈ bigger, ∀ q ∈ smaller, Answered (e.encompasses p q mine theirs stack)) :
    Answered (e.encompassesElements mine theirs stack rest i bigger smaller) := by
  induction smaller generalizing i bigger with
  | nil => exact .some _
  | cons q smaller ih =>
    have hlater : Answered (e.encompassesElements mine theirs stack rest (i + 1) (bigger.drop 1)
        smaller) := by
      refine ih (fun p hp q hq => hrest p hp q (List.mem_cons_of_mem _ hq)) fun p hp q hq => ?_
      exact h p (List.mem_of_mem_drop hp) q (List.mem_cons_of_mem _ hq)
    simp only [encompassesElements]
    split
    · next p hfound =>
      refine .bind ?_ fun _ => .bind hlater fun _ => .some _
      rcases Option.or_eq_some_iff.1 hfound with hhead | ⟨-, hrest'⟩
      · exact h p (List.mem_of_mem_head? hhead) q List.mem_cons_self
      · exact hrest p hrest' q List.mem_cons_self
    · exact .bind (.some _) fun _ => .bind hlater fun _ => .some _

/-- Comparing two arrays place by place is answered where their elements and their rests are. -/
theorem answered_encompassesElementwise {fixed theirFixed : List Pattern}
    {rest theirRest : Option (Pattern × Nat)}
    (h : ∀ p ∈ fixed, ∀ q ∈ theirFixed, Answered (e.encompasses p q mine theirs stack))
    (hrest : ∀ a ∈ rest, ∀ q ∈ theirFixed, Answered (e.encompasses a.1 q mine theirs stack))
    (hlast : ∀ a ∈ rest, ∀ b ∈ theirRest, Answered (e.encompasses a.1 b.1 mine theirs stack)) :
    Answered (e.encompassesElementwise fixed theirFixed rest theirRest mine theirs stack) := by
  refine .bind (answered_encompassesElements (fun p hp => ?_) h) fun _ => ?_
  · obtain ⟨a, ha, rfl⟩ := Option.map_eq_some_iff.1 hp
    exact hrest a ha
  · dsimp only
    split
    · exact .bind ((hlast _ rfl _ rfl).map _) fun _ => .some _
    · exact .bind (.some _) fun _ => .some _

namespace ComparesInside

/-- A part of the containing side is compared with what is inside the contained side. -/
theorem comparePart_inner {p' q' : Pattern} (h : e.ComparesInside mine theirs p weight)
    (hp : p' ∈ p.parts) (hq : q.Throughout Local) (hw : q.weight ≤ weight) (hq' : q' ∈ q.inner) :
    Answered (e.encompasses p' q' mine theirs stack) :=
  h.comparePart hp (hq.inside hq') ((Pattern.weight_lt_of_inner hq').trans_le hw)

/-- What matching an exact value of the contained side asks about weighs less than that side. -/
theorem weight_le_of_exact {v : Value} (hw : (Pattern.exact v).weight ≤ weight) :
    v.weight ≤ weight :=
  (Nat.le_add_left _ _).trans hw

/-- Comparing an object with a pattern of at most the weight is answered. -/
theorem encompassesObject {layout : Layout} {keys : List (String × Pattern)}
    {title : Option String} (h : e.ComparesInside mine theirs (.object layout keys title) weight)
    (hq : q.Throughout Local) (hw : q.weight ≤ weight) :
    Answered (e.encompassesObject keys title q mine theirs stack) := by
  unfold Engine.encompassesObject
  split
  · refine .traverse_bind (fun m hm => answered_encompassesKey (fun m' hm' => ?_) _)
      fun _ => .some _
    exact h.comparePart_inner (List.mem_map_of_mem hm) hq hw (List.mem_map_of_mem hm')
  · exact h.checkObject (weight_le_of_exact hw)
  · exact .some _

/-- A repetition compares its element. -/
theorem encompassesRepeated (h : e.ComparesInside mine theirs p weight) {element : Pattern}
    (helement : element ∈ p.parts) (hq : q.Throughout Local) (hw : q.weight ≤ weight) :
    Answered (e.encompassesRepeated element q mine theirs stack) :=
  answered_encompassesRepeated hq hw (fun _ hitem => h.part helement hitem)
    fun _ hlocal hlight => h.comparePart helement hlocal hlight

section
variable {elements : List Pattern}

/-- A fixed element of an array is one of its parts. -/
theorem mem_parts_of_fixed (hp : p ∈ (Pattern.splitRest elements).1) :
    p ∈ (Pattern.array elements).parts :=
  List.mem_append_left _ hp

/-- What the closing rest of an array repeats is one of its parts. -/
theorem mem_parts_of_rest {a : Pattern × Nat} (ha : a ∈ (Pattern.splitRest elements).2) :
    a.1 ∈ (Pattern.array elements).parts :=
  List.mem_append_right _ (by simp [Option.mem_def.1 ha])

/-- Comparing two arrays is answered. -/
theorem encompassesArrays {theirElements : List Pattern}
    (h : e.ComparesInside mine theirs (.array elements) weight)
    (hq : (Pattern.array theirElements).Throughout Local)
    (hw : (Pattern.array theirElements).weight ≤ weight) :
    Answered (e.encompassesArrays elements theirElements mine theirs stack) := by
  have hfixed {p : Pattern} (hp : p ∈ (Pattern.array elements).parts) :
      ∀ q ∈ (Pattern.splitRest theirElements).1, Answered (e.encompasses p q mine theirs stack) :=
    fun q hq' => h.comparePart_inner hp hq hw (Pattern.mem_of_mem_splitRest hq')
  have hlast {p : Pattern} (hp : p ∈ (Pattern.array elements).parts) :
      ∀ b ∈ (Pattern.splitRest theirElements).2,
        Answered (e.encompasses p b.1 mine theirs stack) := by
    rintro ⟨q, min⟩ hrest
    have hmem : Pattern.rest q min ∈ (Pattern.array theirElements).inner :=
      Pattern.rest_mem_of_splitRest hrest
    have hlight : (Pattern.rest q min).weight < weight :=
      (Pattern.weight_lt_of_inner hmem).trans_le hw
    have hinside : q ∈ (Pattern.rest q min).inner := List.mem_cons_self
    exact h.comparePart_inner hp (hq.inside hmem) hlight.le hinside
  have hcompare : Answered (e.encompassesElementwise (Pattern.splitRest elements).1
      (Pattern.splitRest theirElements).1 (Pattern.splitRest elements).2
      (Pattern.splitRest theirElements).2 mine theirs stack) :=
    answered_encompassesElementwise (fun p hp => hfixed (mem_parts_of_fixed hp))
      (fun a ha => hfixed (mem_parts_of_rest ha)) fun a ha => hlast (mem_parts_of_rest ha)
  unfold Engine.encompassesArrays
  dsimp only
  split
  · exact .some _
  · split
    · exact .some _
    · exact hcompare
  · split
    · exact .some _
    · exact hcompare

/-- Comparing an array with a list is answered. -/
theorem encompassesList (h : e.ComparesInside mine theirs (.array elements) weight)
    (hq : q.Throughout Local) (hw : q.weight ≤ weight) :
    Answered (e.encompassesList elements q mine theirs stack) := by
  unfold Engine.encompassesList
  split
  · next rest min hrest =>
    exact h.encompassesRepeated (mem_parts_of_rest (congrArg Prod.snd hrest)) hq hw
  · exact .some _

/-- Comparing an array with a pattern of at most the weight is answered. -/
theorem encompassesArray (h : e.ComparesInside mine theirs (.array elements) weight)
    (hq : q.Throughout Local) (hw : q.weight ≤ weight) :
    Answered (e.encompassesArray elements q mine theirs stack) := by
  unfold Engine.encompassesArray
  split
  · exact h.encompassesArrays hq hw
  · exact h.checkArray (weight_le_of_exact hw)
  · exact h.encompassesList hq hw
  · exact h.encompassesList hq hw
  · exact .some _

end

/-- Comparing a dictionary with a pattern of at most the weight is answered. -/
theorem encompassesDictionary (h : e.ComparesInside mine theirs (.dictionary key value) weight)
    (hq : q.Throughout Local) (hw : q.weight ≤ weight) :
    Answered (e.encompassesDictionary key value q mine theirs stack) := by
  have hkey : key ∈ (Pattern.dictionary key value).parts := List.mem_cons_self
  have hvalue : value ∈ (Pattern.dictionary key value).parts :=
    List.mem_cons_of_mem _ List.mem_cons_self
  unfold Engine.encompassesDictionary
  split
  · next theirKey theirValue =>
    have hsecond : theirValue ∈ (Pattern.dictionary theirKey theirValue).inner :=
      List.mem_cons_of_mem _ List.mem_cons_self
    exact .bind (h.comparePart_inner hkey hq hw List.mem_cons_self) fun _ =>
      .bind (h.comparePart_inner hvalue hq hw hsecond) fun _ => .some _
  · next layout theirKeys title =>
    refine .traverse_bind (fun m hm => ?_) fun _ => .some _
    have hm := List.mem_of_mem_filter hm
    have hname : 1 + (Key.base m.1).length ≤ weight := by
      have hbase := Key.length_base_le m.1
      have hlight := Pattern.length_add_weight_le_weightOfFields hm
      rw [Pattern.weight_object] at hw
      omega
    have hread := h.parse (.inl List.mem_cons_self) hname
    exact .bind (answered_checkKey hread) fun _ =>
      .bind (h.comparePart_inner hvalue hq hw (List.mem_map_of_mem hm)) fun _ => .some _
  · exact h.checkDictionary (weight_le_of_exact hw)
  · exact .some _

/-! ## Comparing unions, references and encoded patterns -/

/-- Comparing the members of a union with a pattern of at most the weight is answered. -/
theorem encompassesUnion (h : e.ComparesInside mine theirs p weight) {members : List Pattern}
    (hp : ∀ p' ∈ members, p' ∈ p.openParts) (name : String) (hq : q.Throughout Local)
    (hw : q.weight ≤ weight) :
    Answered (e.encompassesUnion members name q mine theirs stack) := by
  refine .traverse_bind (fun member hmember => ?_) fun _ => .some _
  obtain ⟨hlocal, hle⟩ := Pattern.weight_le_of_mem_unionMembers hq hmember
  refine .traverse_bind (fun p' hp' => ?_) fun _ => ?_
  · exact h.compare (.inl (hp p' hp')) hlocal (hle.trans hw)
  · split
    · exact .some _
    · exact .some _

/-- Following a name and comparing what it stands for is answered. -/
theorem followed {name : String} (h : e.ComparesInside mine theirs (.reference name) weight)
    (hq : q.Throughout Local) (hw : q.weight ≤ weight) :
    Answered (e.followed name q mine theirs stack) := by
  have hresolved : resolved q theirs = .ok q := by
    cases q with
    | reference => exact hq.here.elim
    | _ => rfl
  unfold Engine.followed
  split
  · exact .some _
  · exact .some _
  · next bigger hbigger =>
    rw [hresolved]
    exact h.compare (.inr ⟨name, rfl, hbigger⟩) hq hw

/-- Comparing a name with a pattern of at most the weight is answered. -/
theorem encompassesReference {name : String}
    (h : e.ComparesInside mine theirs (.reference name) weight) (hq : q.Throughout Local)
    (hw : q.weight ≤ weight) :
    Answered (e.encompassesReference name q mine theirs stack) := by
  rw [encompassesReference_eq]
  split
  · exact h.followed hq hw
  · split
    · exact .some _
    · exact h.followed hq hw

/-- Comparing an encoded pattern with a pattern of at most the weight is answered. -/
theorem encompassesInString {type : Pattern}
    (h : e.ComparesInside mine theirs (.inString type) weight) (hq : q.Throughout Local)
    (hw : q.weight ≤ weight) :
    Answered (e.encompassesInString type q mine theirs stack) := by
  unfold Engine.encompassesInString
  split
  · exact h.comparePart_inner List.mem_cons_self hq hw List.mem_cons_self
  · exact h.checkInString (weight_le_of_exact hw)
  · exact .some _

/-- Comparing a separated list with a pattern of at most the weight is answered. -/
theorem encompassesCsv {item : Pattern} (h : e.ComparesInside mine theirs (.csv item) weight)
    (hq : q.Throughout Local) (hw : q.weight ≤ weight) :
    Answered (e.encompassesCsv item q mine theirs stack) := by
  unfold Engine.encompassesCsv
  split
  · exact h.comparePart_inner List.mem_cons_self hq hw List.mem_cons_self
  · exact h.checkCsv (weight_le_of_exact hw)
  · exact .some _

/-- An element contains no pattern without names but exact nodes. -/
theorem encompassesXml {shape : XmlShape Pattern}
    (h : e.ComparesInside mine theirs (.xml shape) weight) (hmine : NoElements mine)
    (hq : q.Throughout Local) (hw : q.weight ≤ weight) :
    Answered (e.encompassesXml shape q mine theirs stack) := by
  unfold Engine.encompassesXml
  split
  · exact hq.here.elim
  · exact h.checkXml hmine (weight_le_of_exact hw)
  · exact .some _

/-! ## Comparing all patterns -/

/-- Whatever its form, comparing a pattern with one of at most the weight is answered. -/
theorem encompassesByKind (h : e.ComparesInside mine theirs p weight) (hmine : NoElements mine)
    (hq : q.Throughout Local) (hw : q.weight ≤ weight) :
    Answered (e.encompassesByKind p q mine theirs stack) := by
  cases p with
  | anything | scalar | exact => exact .some _
  | object => exact h.encompassesObject hq hw
  | array => exact h.encompassesArray hq hw
  | list | rest => exact h.encompassesRepeated List.mem_cons_self hq hw
  | dictionary => exact h.encompassesDictionary hq hw
  | xml => exact h.encompassesXml hmine hq hw
  | union | enumeration => exact h.encompassesUnion (fun _ hp' => hp') _ hq hw
  | reference => exact h.encompassesReference hq hw
  | lookup => exact h.compare (.inl List.mem_cons_self) hq hw
  | inString => exact h.encompassesInString hq hw
  | csv => exact h.encompassesCsv hq hw

/-- A step of a comparison has ended if the questions inside have been answered. -/
theorem encompassesStep (h : e.ComparesInside mine theirs p q.weight) (hmine : NoElements mine)
    (hq : q.Throughout Local) : Answered (e.encompassesStep p q mine theirs stack) := by
  unfold Engine.encompassesStep
  split
  · exact h.encompassesByKind hmine hq le_rfl
  · exact hq.here.elim
  · exact h.compareLighter (hq.inside List.mem_cons_self)
      (Pattern.weight_lt_of_inner List.mem_cons_self)
  · split
    · next hunion =>
      refine .traverse_bind (fun member hmember => Answered.map (h.compareLighter ?_ ?_) _)
        fun _ => .some _
      · exact (Pattern.weight_le_of_mem_unionMembers hq hmember).1
      · cases q with
        | union | enumeration => exact Pattern.weight_lt_of_inner hmember
        | _ => simp [isUnion] at hunion
    · exact h.encompassesByKind hmine hq le_rfl

end ComparesInside

/-! ## Budgets -/

variable {n bound depth : Nat}

/-- Comparisons of tame patterns with patterns without names have ended if their rank is below the
number. -/
def ComparesBelow (e : Engine) (n bound : Nat) (mine theirs : Resolver) : Prop :=
  ∀ p q depth stack, p.Tame mine bound → p.ShallowBy openParts mine depth →
    q.Throughout Local → rank bound q.weight depth < n →
      Answered (e.encompasses p q mine theirs stack)

/-- The comparisons inside have a lower rank. -/
theorem ComparesBelow.inside (h : e.ComparesBelow n bound mine theirs)
    (hanswers : e.AnswersBelow n bound mine) (hp : p.Tame mine bound)
    (hd : p.ShallowBy openParts mine depth) (hn : rank bound weight depth ≤ n) :
    e.ComparesInside mine theirs p weight := by
  refine ⟨hanswers.inside hp hd hn, fun {p' q stack} hp' hq hw => ?_,
    fun {p' q stack} hp' hq hw => ?_, fun {q stack} hq hw => ?_⟩
  · cases depth with
    | zero => exact hd.elim
    | succ d =>
      have hle : rank bound q.weight d ≤ rank bound weight d := rank_le hw le_rfl
      rw [rank_succ] at hn
      exact h p' q d stack (hp.of_leads hp'.leads) (hd p' hp') hq (by omega)
  · have hp' := hp.part hp'
    have hlt : rank bound q.weight bound + 1 < rank bound weight depth := rank_lt_of_lt hw
    exact h p' q bound stack hp' hp'.here hq (by omega)
  · have hlt : rank bound q.weight bound + 1 < rank bound weight depth := rank_lt_of_lt hw
    exact h p q bound stack hp hp.here hq (by omega)

/-- Every budget answers the comparisons of a lower rank, by induction on the budget. -/
theorem comparesBelow_ofBudget (hmine : NoElements mine) (hmock : mine.config.mockMode = false)
    (n : Nat) : (ofBudget n).ComparesBelow n bound mine theirs := by
  induction n with
  | zero => exact fun p q depth stack _ _ _ hn => absurd hn (Nat.not_lt_zero _)
  | succ n ih =>
    intro p q depth stack hp hd hq hn
    have hanswers : (ofBudget n).AnswersBelow n bound mine := answersBelow_ofBudget hmine hmock n
    exact (ih.inside hanswers hp hd (Nat.le_of_lt_succ hn)).encompassesStep hmine hq

end Engine

namespace Pattern

variable {p q : Pattern} {mine : Resolver}

/-- Where recursion is guarded on the containing side and there are no names on the contained side,
every comparison ends. -/
theorem exists_encompasses_of_guarded (hr : mine.Guarded)
    (hregistry : ∀ name q, (name, q) ∈ mine.registry → q.NotXml)
    (hmock : mine.config.mockMode = false) (hq : q.Throughout Local) (p : Pattern)
    (theirs : Resolver) (stack : TypeStack) : ∃ m, p.encompasses q mine theirs stack = some m := by
  have htame := tame_of_guarded hr p
  have hmine := noElements_of_registry hregistry
  refine Engine.comparesBelow_ofBudget hmine hmock _ p q _ stack htame htame.here hq ?_
  have hrank : Engine.rank (p.weight + 2 * mine.weight) q.weight (p.weight + 2 * mine.weight) + 1 <
      Engine.budgetFor (p.weight + q.weight + mine.weight + theirs.weight + stack.length) :=
    Engine.rank_lt_budgetFor (by omega) (by omega)
  omega

/-- A type of chains, whose links are under the key of an object. -/
def chainResolver : Resolver :=
  { Resolver.empty with
    registry := [
      ("(Link)", .object .json [("name", .string), ("next", .reference "(Tail)")] none),
      ("(Tail)", .union [.null, .reference "(Link)"] none none)] }

/-- A chain of two links that is written out, with an exact value for the second one. -/
def twoLinks : Pattern :=
  .object .json
    [("name", .string),
      ("next", .exact (.object [("name", .string "last"), ("next", .null)]))] none

/-- In the registry of chains a name comes back only below the key of an object. -/
theorem chainResolver_guarded : chainResolver.Guarded := by
  refine Resolver.not_transGen_of_rank
    (fun name => if Name.delimited name = "(Tail)" then 1 else 0) ?_
  rintro name next ⟨p, hp, hnames⟩
  have hmem := Resolver.mem_of_getPattern hp
  simp only [chainResolver, List.mem_cons, List.not_mem_nil, or_false, Prod.mk.injEq] at hmem
  rcases hmem with ⟨-, rfl⟩ | ⟨hname, rfl⟩
  · cases hnames with
    | step hq _ => cases hq
  · obtain rfl : next = "(Link)" := by
      cases hnames with
      | step hq hnames =>
        rcases List.mem_cons.1 hq with rfl | hq
        · cases hnames with
          | step hq _ => cases hq
        · obtain rfl := List.mem_singleton.1 hq
          cases hnames with
          | here => rfl
          | step hq _ => cases hq
    rw [if_pos hname]
    decide

/-- The recursive type of chains meets the conditions, and its comparison with a chain of two links
ends. -/
theorem exists_encompasses_twoLinks :
    chainResolver.Guarded ∧
      (∀ name q, (name, q) ∈ chainResolver.registry → q.NotXml) ∧
      chainResolver.config.mockMode = false ∧ twoLinks.Throughout Local ∧
      ∃ m, (reference "(Link)").encompasses twoLinks chainResolver .empty [] = some m := by
  have hregistry (name : String) (q : Pattern) (hq : (name, q) ∈ chainResolver.registry) :
      q.NotXml := by
    simp only [chainResolver, List.mem_cons, List.not_mem_nil, or_false, Prod.mk.injEq] at hq
    rcases hq with ⟨-, rfl⟩ | ⟨-, rfl⟩
    · trivial
    · trivial
  have hlinks : twoLinks.Throughout Local := by
    have hleaf (s : Scalar) : (scalar s).Throughout Local := .leaf trivial rfl
    have hexact (v : Value) : (exact v).Throughout Local := .leaf trivial rfl
    exact .intro trivial (by simp [twoLinks, inner, Pattern.string, hleaf, hexact])
  exact ⟨chainResolver_guarded, hregistry, rfl, hlinks,
    exists_encompasses_of_guarded chainResolver_guarded hregistry rfl hlinks _ _ _⟩

end Pattern

end DataContract
