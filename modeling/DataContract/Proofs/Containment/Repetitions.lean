import DataContract.Proofs.Containment.Arrays
import DataContract.Proofs.Generation.Scalars
import DataContract.Proofs.Termination.Budget

/-!
# Containment of arrays, lists and repetitions of scalars

A sequence pattern is an array, a list or a repetition over scalars. A repetition that is not the
last element of an array stands for one array at its index, so the items are scalars or arrays of
scalars. Containment compares what stands at each index of the two sides. Two things escape it
(`Pattern.list_contains_more`): it never asks how few items there may be, and for a list it takes a
repetition among the elements of an array for what it repeats. A sequence accepts what is accepted
by a sequence that it contains if it asks for no more than that one, and only then
(`Pattern.check_of_contains_iff_asksNoMore`).
-/

namespace DataContract

namespace Pattern

/-! ## Sequences -/

/-- A scalar, or a repetition of one. -/
def IsItem : Pattern → Prop
  | .scalar _ => True
  | .rest (.scalar _) _ => True
  | _ => False

/-- An array of scalars and repetitions of scalars, or a list or a repetition of a scalar. -/
def IsSequence : Pattern → Prop
  | .array elements => ∀ p ∈ elements, p.IsItem
  | .list (.scalar _) _ _ => True
  | .rest (.scalar _) _ => True
  | _ => False

/-- The pattern for the item at an index. -/
def itemAt? : Pattern → Nat → Option Pattern
  | .array elements, i => place? elements i
  | .list element _ _, _ => some element
  | .rest element _, _ => some element
  | _, _ => none

/-- The number of items that there are at least. -/
def leastItems : Pattern → Nat
  | .array elements =>
    (splitRest elements).1.length + ((splitRest elements).2.map (·.2)).getD 0
  | .list _ _ min => min
  | .rest _ min => min
  | _ => 0

/-- The number of items is given. -/
def isFinite : Pattern → Bool
  | .array elements => (splitRest elements).2.isNone
  | _ => false

/-- There are enough items, and no more than that if their number is given. -/
structure Admits (p : Pattern) (length : Nat) : Prop where
  least : p.leastItems ≤ length
  finite : p.isFinite = true → length ≤ p.leastItems

/-- What a pattern asks for, the other one asks for, too: as many items, and where the other one
has a repetition that stands for an array, an array of as few items. -/
structure AsksNoMore (b s : Pattern) : Prop where
  least : b.leastItems ≤ s.leastItems
  nested : ∀ i element min, s.itemAt? i = some (.rest element min) →
    ∃ element' min', b.itemAt? i = some (.rest element' min') ∧ min' ≤ min

variable {p q b s : Pattern} {r mine theirs : Resolver} {v : Value} {i : Nat}

/-- An array admits the lengths that fit it. -/
theorem admits_array_iff {elements : List Pattern} {length : Nat} :
    (array elements).Admits length ↔ FitsLength elements length := by
  unfold FitsLength
  cases hrest : (splitRest elements).2 with
  | none =>
    constructor
    · rintro ⟨hleast, hfinite⟩
      simp only [leastItems, isFinite, hrest] at hleast hfinite
      simp only [Option.map_none, Option.getD_none, Nat.add_zero, Option.isNone_none,
        forall_const] at hleast hfinite
      exact Nat.le_antisymm hfinite hleast
    · intro hlength
      constructor <;> simp [leastItems, hrest, hlength]
  | some last =>
    constructor
    · rintro ⟨hleast, -⟩
      simpa [leastItems, hrest] using hleast
    · intro hlength
      exact ⟨by simpa [leastItems, hrest] using hlength, by simp [isFinite, hrest]⟩

/-- Sequences are compared as they are. -/
theorem IsSequence.direct (hp : p.IsSequence) : p.Direct := by
  cases p with
  | array | list | rest => trivial
  | _ => exact hp.elim

/-- The pattern of an item is one of the elements or what is repeated at the end. -/
theorem IsSequence.itemAt (hp : p.IsSequence) (hi : p.itemAt? i = some q) : q.IsItem := by
  cases p with
  | array elements =>
    rcases Option.or_eq_some_iff.1 hi with hi | ⟨-, hi⟩
    · exact hp q (mem_of_mem_splitRest (List.mem_of_getElem? hi))
    · obtain ⟨⟨q, min⟩, hrest, rfl⟩ := Option.map_eq_some_iff.1 hi
      have hlast := hp _ (rest_mem_of_splitRest hrest)
      cases q with
      | scalar c => exact hlast
      | _ => exact hlast.elim
  | list element title min | rest element min =>
    cases hi
    cases q with
    | scalar c => exact hp
    | _ => exact hp.elim
  | _ => exact hp.elim

/-- A repetition that stands for an array stands among the elements that have to be there. -/
theorem IsSequence.lt_leastItems {element : Pattern} {min : Nat} (hp : p.IsSequence)
    (hi : p.itemAt? i = some (.rest element min)) : i < p.leastItems := by
  cases p with
  | array elements =>
    rcases Option.or_eq_some_iff.1 hi with hi | ⟨-, hi⟩
    · exact Nat.lt_add_right _ (List.getElem?_eq_some_iff.1 hi).1
    · obtain ⟨⟨_, k⟩, hrest, rfl⟩ := Option.map_eq_some_iff.1 hi
      exact (hp _ (rest_mem_of_splitRest hrest)).elim
  | list | rest =>
    cases hi
    exact hp.elim
  | _ => exact hp.elim

/-- At each index of an admitted length there is a pattern for the item. -/
theorem IsSequence.exists_itemAt {length : Nat} (hp : p.IsSequence) (hlength : p.Admits length)
    (hi : i < length) : ∃ q, p.itemAt? i = some q := by
  cases p with
  | array => exact exists_place (admits_array_iff.1 hlength) hi
  | list element | rest element => exact ⟨element, rfl⟩
  | _ => exact hp.elim

/-! ## What sequences accept -/

/-- A match with an item ends on a budget of two. -/
theorem IsItem.bounded (hp : p.IsItem) : p.Bounded r 2 := by
  cases p with
  | scalar c => exact bounded_scalar c
  | rest element min =>
    cases element with
    | scalar c => exact .of_inner nofun nofun fun _ hq => List.mem_singleton.1 hq ▸ bounded_scalar c
    | _ => exact hp.elim
  | _ => exact hp.elim

/-- A match with a sequence ends on a budget of three. -/
theorem IsSequence.bounded (hp : p.IsSequence) : p.Bounded r 3 := by
  cases p with
  | array elements => exact .of_inner nofun nofun fun q hq => (hp q hq).bounded
  | list element | rest element =>
    cases element with
    | scalar c => exact .of_inner nofun nofun fun _ hq => List.mem_singleton.1 hq ▸ bounded_scalar c
    | _ => exact hp.elim
  | _ => exact hp.elim

/-- A sequence accepts the arrays of a length that it admits with an accepted item at each
index. -/
theorem IsSequence.accepts_iff (hp : p.IsSequence) (hr : r.config.mockMode = false) :
    p.Accepts v r ↔ ∃ items, v = .array items ∧ p.Admits items.length ∧
      ∀ i q w, p.itemAt? i = some q → items[i]? = some w → q.Accepts w r := by
  have hrepeated {element : Pattern} {items : List Value} :
      (∀ item ∈ items, element.Accepts item r) ↔
        ∀ (i : Nat) q w, some element = some q → items[i]? = some w → q.Accepts w r := by
    constructor
    · rintro h i _ w ⟨rfl⟩ hw
      exact h w (List.mem_of_getElem? hw)
    · intro h item hi
      obtain ⟨i, hi⟩ := List.getElem?_of_mem hi
      exact h i element item rfl hi
  rw [hp.bounded.accepts_iff_fits hr]
  cases p with
  | array elements =>
    refine exists_congr fun items => and_congr_right fun _ => ?_
    rw [admits_array_iff]
    exact ⟨fun h => ⟨h.length, h.items⟩, fun h => ⟨h.1, h.2⟩⟩
  | list element _ min | rest element min =>
    refine exists_congr fun items => and_congr_right fun _ => and_congr ?_ hrepeated
    exact ⟨fun h => ⟨h, nofun⟩, Admits.least⟩
  | _ => exact hp.elim

/-! ## The shortest values -/

/-- The scalar comes from the constructor that checks the bounds. -/
def IsChecked : Pattern → Prop
  | .scalar c => c.Checked
  | .rest (.scalar c) _ => c.Checked
  | _ => False

/-- A value of a scalar. -/
def sample (c : Scalar) : Value :=
  c.generate default

/-- A value of an item: as few scalars as a repetition asks for. -/
def leastItem : Pattern → Value
  | .scalar c => sample c
  | .rest (.scalar c) min => .array (List.replicate min (sample c))
  | _ => .null

/-- The items of a value of a sequence: as few as there may be, and in them as few as there may
be. -/
def shortest (p : Pattern) : List Value :=
  (List.range p.leastItems).map fun i => ((p.itemAt? i).map leastItem).getD .null

/-- The shortest value has as many items as there are at least. -/
theorem length_shortest (p : Pattern) : p.shortest.length = p.leastItems := by
  simp [shortest]

/-- The shortest value has the least item at each place. -/
theorem getElem?_shortest (hi : p.itemAt? i = some q) (hlt : i < p.leastItems) :
    p.shortest[i]? = some q.leastItem := by
  simp [shortest, hlt, hi]

/-- A scalar whose bounds have been checked accepts its sample. -/
theorem accepts_sample {c : Scalar} (hc : c.Checked) (hr : r.config.mockMode = false) :
    (scalar c).Accepts (sample c) r :=
  (accepts_scalar_iff hr).2 (Scalar.check_generate hc default)

/-- An item accepts its least value. -/
theorem IsItem.accepts_leastItem (hp : p.IsItem) (hc : p.IsChecked)
    (hr : r.config.mockMode = false) : p.Accepts p.leastItem r := by
  cases p with
  | scalar c => exact accepts_sample hc hr
  | rest element min =>
    cases element with
    | scalar c =>
      refine (hp.bounded.accepts_iff_fits hr).2 ⟨_, rfl, ?_, fun item hi => ?_⟩
      · rw [List.length_replicate]
      · rw [List.eq_of_mem_replicate hi]
        exact accepts_sample hc hr
    | _ => exact hp.elim
  | _ => exact hp.elim

/-- A sequence accepts its shortest value. -/
theorem IsSequence.accepts_shortest (hp : p.IsSequence)
    (hc : ∀ i q, p.itemAt? i = some q → q.IsChecked) (hr : r.config.mockMode = false) :
    p.Accepts (.array p.shortest) r := by
  refine (hp.accepts_iff hr).2 ⟨_, rfl, ?_, fun i q w hi hw => ?_⟩
  · rw [length_shortest]
    exact ⟨le_rfl, fun _ => le_rfl⟩
  · have hlt := (List.getElem?_eq_some_iff.1 hw).1
    rw [length_shortest] at hlt
    rw [getElem?_shortest hi hlt] at hw
    cases hw
    exact (hp.itemAt hi).accepts_leastItem (hc i q hi) hr

/-- A sequence that accepts what another one accepts asks for no more than that one: it has to
accept the shortest value of it. -/
theorem asksNoMore_of_accepts (hb : b.IsSequence) (hs : s.IsSequence)
    (hc : ∀ i q, s.itemAt? i = some q → q.IsChecked) (hm : mine.config.mockMode = false)
    (ht : theirs.config.mockMode = false) (h : ∀ v, s.Accepts v theirs → b.Accepts v mine) :
    b.AsksNoMore s := by
  -- The shortest value is short in its length and in every array inside it at once.
  obtain ⟨_, ⟨rfl⟩, hlength, hitems⟩ := (hb.accepts_iff hm).1 (h _ (hs.accepts_shortest hc ht))
  refine ⟨length_shortest s ▸ hlength.least, fun i element min hi => ?_⟩
  have hlt := hs.lt_leastItems hi
  obtain ⟨p, hp⟩ := hb.exists_itemAt hlength (length_shortest s ▸ hlt)
  have hmin := hitems i p _ hp (getElem?_shortest hi hlt)
  have hitem : IsItem (rest element min) := hs.itemAt hi
  cases element with
  | scalar c =>
    have hitem' := hb.itemAt hp
    cases p with
    | scalar d =>
      have hfamily := Scalar.family_of_check ((accepts_scalar_iff hm).1 hmin)
      cases d <;> cases hfamily
    | rest element' min' =>
      obtain ⟨_, ⟨rfl⟩, hle, -⟩ := hmin.fits hm
      rw [List.length_replicate] at hle
      exact ⟨element', min', hp, hle⟩
    | _ => exact hitem'.elim
  | _ => exact hitem.elim

end Pattern

/-! ## What containment finds out -/

namespace Engine

open Pattern (splitRest place?)

variable {mine theirs : Resolver} {e : Engine} {stack : TypeStack} {n i : Nat}
  {p q b s element : Pattern}

/-- What is repeated is compared with the pattern at each index of a contained sequence, unless that
stands for an array. -/
theorem succeeds_itemAt_of_repeated (hs : s.IsSequence)
    (h : Succeeds (e.encompassesRepeated element s mine theirs stack)) (hq : s.itemAt? i = some q)
    (hrest : q.isRest = false) : Succeeds (e.encompasses element q mine theirs stack) := by
  cases s with
  | array => exact succeeds_place h hq hrest
  | list | rest =>
    cases hq
    exact h
  | _ => exact hs.elim

/-- An array that contains a list is nothing but a repetition. -/
theorem exists_of_encompassesList {elements : List Pattern}
    (h : Succeeds (e.encompassesList elements s mine theirs stack)) :
    ∃ element min, splitRest elements = ([], some (element, min)) ∧
      Succeeds (e.encompassesRepeated element s mine theirs stack) := by
  unfold encompassesList at h
  split at h
  · next element min hsplit => exact ⟨element, min, hsplit, h⟩
  · exact absurd (succeeds_some.1 h) (by simp)

/-- What two sequences have at an index is compared, unless only the contained one has an array
there. -/
theorem succeeds_itemAt (hb : b.IsSequence) (hs : s.IsSequence)
    (h : Succeeds (e.encompassesByKind b s mine theirs stack)) (hp : b.itemAt? i = some p)
    (hq : s.itemAt? i = some q) (hrest : p.isRest = false → q.isRest = false) :
    Succeeds (e.encompasses p q mine theirs stack) := by
  have hscalar {q : Pattern} (hq : ∃ c : Scalar, q = .scalar c) : q.isRest = false := by
    obtain ⟨c, rfl⟩ := hq
    rfl
  cases b with
  | array elements =>
    have hlist (h : Succeeds (e.encompassesList elements s mine theirs stack)) :
        Succeeds (e.encompasses p q mine theirs stack) := by
      obtain ⟨element, min, hsplit, h⟩ := exists_of_encompassesList h
      obtain rfl : element = p := by simpa [Pattern.itemAt?, place?, hsplit] using hp
      have hitem : Pattern.IsItem (.rest element min) :=
        hb _ (Pattern.rest_mem_of_splitRest (by rw [hsplit]))
      cases element with
      | scalar c => exact succeeds_itemAt_of_repeated hs h hq (hrest rfl)
      | _ => exact hitem.elim
    cases s with
    | array theirElements => exact (covers_of_encompassesArrays h).places i p q hp hq
    | list | rest => exact hlist h
    | _ => exact hs.elim
  | list element | rest element =>
    cases hp
    cases p with
    | scalar c => exact succeeds_itemAt_of_repeated hs h hq (hrest rfl)
    | _ => exact hb.elim
  | _ => exact hb.elim

/-- A sequence of a given length contains only sequences of this length. -/
theorem finite_of_encompasses (hs : s.IsSequence)
    (h : Succeeds (e.encompassesByKind b s mine theirs stack)) (hfinite : b.isFinite = true) :
    s.isFinite = true ∧ s.leastItems = b.leastItems := by
  cases b with
  | array elements =>
    have hnone : (splitRest elements).2 = none := Option.isNone_iff_eq_none.1 hfinite
    have hlist : ¬ Succeeds (e.encompassesList elements s mine theirs stack) := by
      intro h
      obtain ⟨element, min, hsplit, -⟩ := exists_of_encompassesList h
      rw [hsplit] at hnone
      cases hnone
    cases s with
    | array theirElements =>
      obtain ⟨htheirs, hlength⟩ := (covers_of_encompassesArrays h).finite hnone
      simp [Pattern.isFinite, Pattern.leastItems, hnone, htheirs, hlength]
    | list | rest => exact absurd h hlist
    | _ => exact hs.elim
  | _ => cases hfinite

end Engine

namespace Pattern

variable {mine theirs : Resolver} {b s p q : Pattern} {v w : Value} {n : Nat}

/-- An item accepts what an item does that it contains, if it repeats no more often where that
repeats. -/
theorem IsItem.accepts_of_encompasses {stack : TypeStack} (hm : mine.config.mockMode = false)
    (ht : theirs.config.mockMode = false) (hp : p.IsItem) (hq : q.IsItem)
    (hnested : ∀ element min, q = .rest element min →
      ∃ element' min', p = .rest element' min' ∧ min' ≤ min)
    (h : Succeeds ((Engine.ofBudget n).encompasses p q mine theirs stack))
    (ha : q.Accepts w theirs) : p.Accepts w mine := by
  have hscalar {c d : Scalar} {n : Nat} {w : Value}
      (h : Succeeds ((Engine.ofBudget n).encompasses (.scalar c) (.scalar d) mine theirs stack))
      (ha : (scalar d).Accepts w theirs) : (scalar c).Accepts w mine := by
    have hcontains := Engine.encompasses_of_succeeds_scalar h
    exact (accepts_scalar_iff hm).2
      (Scalar.check_of_encompasses hcontains ((accepts_scalar_iff ht).1 ha))
  cases q with
  | scalar d =>
    cases p with
    | scalar c => exact hscalar h ha
    | rest element min =>
      cases n with
      | zero => exact absurd h not_succeeds_none
      | succ n =>
        exact absurd (succeeds_some.1 h) (by simp [Engine.otherKind])
    | _ => exact hp.elim
  | rest theirElement theirMin =>
    obtain ⟨element, min, rfl, hle⟩ := hnested _ _ rfl
    cases element with
    | scalar c =>
      cases theirElement with
      | scalar d =>
        obtain ⟨items, rfl, hlength, hitems⟩ := ha.fits ht
        refine (hp.bounded.accepts_iff_fits hm).2 ⟨items, rfl, hle.trans hlength, ?_⟩
        intro item hi
        cases n with
        | zero => exact absurd h not_succeeds_none
        | succ n => exact hscalar (n := n) h (hitems item hi)
      | _ => exact hq.elim
    | _ => exact hp.elim
  | _ => exact hq.elim

/-- A sequence accepts what is accepted by a sequence that it contains, if it asks for no more. -/
theorem AsksNoMore.accepts_of_contains (hn : b.AsksNoMore s) (hm : mine.config.mockMode = false)
    (ht : theirs.config.mockMode = false) (hb : b.IsSequence) (hs : s.IsSequence)
    (hc : b.Contains s mine theirs) (ha : s.Accepts v theirs) : b.Accepts v mine := by
  obtain ⟨n, hc⟩ := hc.byKind hs.direct
  obtain ⟨items, rfl, hlength, hitems⟩ := (hs.accepts_iff ht).1 ha
  refine (hb.accepts_iff hm).2 ⟨items, rfl, ⟨hn.least.trans hlength.least, ?_⟩, ?_⟩
  · intro hfinite
    obtain ⟨hfinite', heq⟩ := Engine.finite_of_encompasses hs hc hfinite
    exact heq ▸ hlength.finite hfinite'
  · intro i p w hp hw
    obtain ⟨q, hq⟩ := hs.exists_itemAt hlength (List.getElem?_eq_some_iff.1 hw).1
    have hnested (element : Pattern) (min : Nat) (he : q = .rest element min) :
        ∃ element' min', p = .rest element' min' ∧ min' ≤ min := by
      obtain ⟨element', min', hp', hle⟩ := hn.nested i element min (he ▸ hq)
      exact ⟨element', min', Option.some.inj (hp.symm.trans hp'), hle⟩
    -- By `hn.nested` the containing sequence never has a scalar where the other one has an array.
    have hsucceeds := Engine.succeeds_itemAt hb hs hc hp hq fun hp' => by
      cases q with
      | rest element min =>
        obtain ⟨_, _, rfl, -⟩ := hnested element min rfl
        cases hp'
      | _ => rfl
    exact (hb.itemAt hp).accepts_of_encompasses hm ht (hs.itemAt hq) hnested hsucceeds
      (hitems i q w hq hw)

/-- A sequence accepts all that is accepted by a sequence which it contains if it asks for no more
than that one, and unless the bounds of a scalar of that one are impossible, only if it does. -/
theorem check_of_contains_iff_asksNoMore (hm : mine.config.mockMode = false)
    (ht : theirs.config.mockMode = false) (hb : b.IsSequence) (hs : s.IsSequence)
    (hc : b.Contains s mine theirs) :
    (b.AsksNoMore s →
        ∀ v, s.check v theirs = some .success → b.check v mine = some .success) ∧
      ((∀ i q, s.itemAt? i = some q → q.IsChecked) →
        (∀ v, s.check v theirs = some .success → b.check v mine = some .success) →
          b.AsksNoMore s) := by
  have hcheck (v : Value) : (s.check v theirs = some .success → b.check v mine = some .success) ↔
      (s.Accepts v theirs → b.Accepts v mine) := by
    rw [hs.bounded.accepts_iff_check ht (by decide), hb.bounded.accepts_iff_check hm (by decide)]
  rw [forall_congr' hcheck]
  exact ⟨fun hn v ha => hn.accepts_of_contains hm ht hb hs hc ha,
    fun hchecked => asksNoMore_of_accepts hb hs hchecked hm ht⟩

/-- One array of numbers, a unit and any further numbers. -/
def measurement : Pattern :=
  .array [.rest .number 1, .string, .rest .number 0]

/-- The same with at least two whole numbers in the array and at least two behind the unit. -/
def calibration : Pattern :=
  .array [.rest (.scalar (.number .anyInteger)) 2, .string, .number,
    .rest (.scalar (.number .anyInteger)) 1]

/-- The measurement contains the calibration and asks for no more, so it accepts every value of
it. -/
theorem measurement_check :
    Resolver.empty.config.mockMode = false ∧ measurement.IsSequence ∧ calibration.IsSequence ∧
      measurement.Contains calibration .empty .empty ∧
      ∀ v, calibration.check v .empty = some .success →
        measurement.check v .empty = some .success := by
  have hb : measurement.IsSequence := by
    intro p hp
    simp only [List.mem_cons, List.not_mem_nil, or_false] at hp
    rcases hp with rfl | rfl | rfl
    all_goals trivial
  have hs : calibration.IsSequence := by
    intro p hp
    simp only [List.mem_cons, List.not_mem_nil, or_false] at hp
    rcases hp with rfl | rfl | rfl | rfl
    all_goals trivial
  have hc : measurement.Contains calibration .empty .empty := ⟨3, rfl⟩
  refine ⟨rfl, hb, hs, hc, (check_of_contains_iff_asksNoMore rfl rfl hb hs hc).1 ⟨by decide, ?_⟩⟩
  intro i element min hi
  rcases i with _ | _ | _ | i
  · cases hi
    exact ⟨.number, 1, rfl, by decide⟩
  · cases hi
  · cases hi
  · cases hi

/-- A list of at least one number contains the list of any number of them, which accepts the array
without items that the former does not accept. And a list of numbers contains an array pattern whose
first element is an array of numbers, and does not accept what that accepts. -/
theorem list_contains_more :
    ((list number none 1).isCompatibleWith (list number none 0) .empty .empty = some .success ∧
      (list number none 0).check (.array []) .empty = some .success ∧
      Fails ((list number none 1).check (.array []) .empty)) ∧
    (list number none 0).isCompatibleWith (array [.rest number 0, number]) .empty .empty =
        some .success ∧
      (array [.rest number 0, number]).check (.array [.array [], .number .one]) .empty =
        some .success ∧
      Fails ((list number none 0).check (.array [.array [], .number .one]) .empty) :=
  ⟨⟨rfl, rfl, _, rfl⟩, rfl, rfl, _, rfl⟩

end Pattern

end DataContract
