import DataContract.Matching
import DataContract.Proofs.ValueEquality

/-!
# Agreement of engines on matching

`Engine.Below e e'` says that `e'` answers every question that `e` answers, and gives the same
verdict; the verdict may depend neither on how numbers are written in the value nor on anything in
the resolver but the registry and the mock mode (`Resolver.Alike`). Each way of matching a
structure, a union or an encoded pattern keeps this relation: it is stated here once for every
function of matching, for XML in the next module and for containment after that.
-/

namespace DataContract

/-- Resolvers that matching, reading and comparing do not tell apart. -/
structure Resolver.Alike (r s : Resolver) : Prop where
  registry : r.registry = s.registry
  mockMode : r.config.mockMode = s.config.mockMode

namespace Resolver.Alike

variable {r s t : Resolver}

/-- A resolver is alike itself. -/
theorem refl (r : Resolver) : r.Alike r := ⟨rfl, rfl⟩

/-- Likeness has no direction. -/
theorem symm (h : r.Alike s) : s.Alike r := ⟨h.registry.symm, h.mockMode.symm⟩

/-- Likeness goes through a third resolver. -/
theorem trans (h : r.Alike s) (h' : s.Alike t) : r.Alike t :=
  ⟨h.registry.trans h'.registry, h.mockMode.trans h'.mockMode⟩

/-- Alike resolvers follow a name along the same aliases. -/
theorem follow (h : r.Alike s) (steps : Nat) (seen : List String) (name : String) :
    r.follow steps seen name = s.follow steps seen name := by
  induction steps generalizing seen name with
  | zero => rfl
  | succ steps ih => simp only [Resolver.follow, getPattern, h.registry, ih]

/-- Alike resolvers resolve a name to the same pattern, or fail with the same error. -/
theorem resolve (h : r.Alike s) (name : String) : r.resolve name = s.resolve name := by
  rw [Resolver.resolve, h.follow, h.registry, ← Resolver.resolve]

/-- A resolver in which a name is being expanded matches as before. -/
theorem of_expand {name : String} (h : r.expand name = .ok s) : s.Alike r := by
  unfold Resolver.expand at h
  split at h
  · cases h
  · cases h
    exact ⟨rfl, rfl⟩

end Resolver.Alike

/-- The second engine answers what the first one answers, with the same verdict, whichever of equal
values and of alike resolvers it is asked about. -/
structure Engine.Below (e e' : Engine) : Prop where
  check {p : Pattern} {v w : Value} {r s : Resolver} (hv : v.equal w = true) (hr : r.Alike s) :
    Extends MatchResult.Agrees (e.check p v r) (e'.check p w s)
  parse (p : Pattern) (text : String) {r s : Resolver} (hr : r.Alike s) :
    Outcome.Extends Eq (e.parse p text r) (e'.parse p text s)
  encompasses {p q : Pattern} {r r' s s' : Resolver} {stack : TypeStack} (hr : r.Alike r')
    (hs : s.Alike s') : Extends MatchResult.Agrees (e.encompasses p q r s stack)
      (e'.encompasses p q r' s' stack)

/-! ## Lists -/

section
variable {α β γ δ : Type} {R : α → β → Prop} {S : γ → δ → Prop}

/-- Related lists are related under the same positions. -/
theorem forall₂_zipIdx {as : List α} {bs : List β} (h : List.Forall₂ R as bs) (i : Nat) :
    List.Forall₂ (fun a b => R a.1 b.1 ∧ a.2 = b.2) (as.zipIdx i) (bs.zipIdx i) := by
  induction h generalizing i with
  | nil => exact .nil
  | cons hab _ ih => exact .cons ⟨hab, rfl⟩ (ih (i + 1))

/-- Related lists stay related when one list is put in front of both. -/
theorem forall₂_zip_left (l : List γ) {as : List α} {bs : List β} (h : List.Forall₂ R as bs) :
    List.Forall₂ (fun a b => a.1 = b.1 ∧ R a.2 b.2) (l.zip as) (l.zip bs) := by
  induction h generalizing l with
  | nil => simp
  | cons hab _ ih =>
    cases l with
    | nil => exact .nil
    | cons c l => exact .cons ⟨rfl, hab⟩ (ih l)

/-- Two functions that give related results keep them at the same places. -/
theorem forall₂_filterMap {f : γ → Option α} {g : γ → Option β} {l : List γ}
    (h : ∀ c ∈ l, Option.Rel R (f c) (g c)) : List.Forall₂ R (l.filterMap f) (l.filterMap g) := by
  induction l with
  | nil => exact .nil
  | cons c l ih =>
    have hl := ih fun d hd => h d (List.mem_cons_of_mem _ hd)
    have hc := h c List.mem_cons_self
    rw [List.filterMap_cons, List.filterMap_cons]
    cases hf : f c <;> cases hg : g c <;> rw [hf, hg] at hc <;> cases hc
    · exact hl
    · next hab => exact .cons hab hl

/-- Of related lists both are empty or none is. -/
theorem isEmpty_eq_of_forall₂ {as : List α} {bs : List β} (h : List.Forall₂ R as bs) :
    as.isEmpty = bs.isEmpty := by
  cases h <;> rfl

/-- Two images of a list are related if they are at every element. -/
theorem forall₂_map_same {f : γ → α} {g : γ → β} (l : List γ) (h : ∀ c, R (f c) (g c)) :
    List.Forall₂ R (l.map f) (l.map g) := by
  rw [List.forall₂_map_left_iff, List.forall₂_map_right_iff]
  exact List.forall₂_same.2 fun c _ => h c

end

/-- The members of equal objects under a key are equal, or there are none. -/
theorem Fields.get?_rel {as bs : List (String × Value)}
    (h : List.Forall₂ (fun a b => a.1 = b.1 ∧ a.2.equal b.2 = true) as bs) (name : String) :
    Option.Rel (fun v w => v.equal w = true) (Fields.get? as name) (Fields.get? bs name) := by
  induction h with
  | nil => exact .none
  | cons hab _ ih =>
    obtain ⟨hk, hv⟩ := hab
    simp only [Fields.get?, ← hk]
    split
    · exact .some hv
    · exact ih

/-- Members with the same keys have the same names. -/
theorem Fields.has_eq {as bs : List (String × Value)}
    (h : List.Forall₂ (fun a b => a.1 = b.1 ∧ a.2.equal b.2 = true) as bs) (name : String) :
    Fields.has as name = Fields.has bs name := by
  have hrel := Fields.get?_rel h name
  unfold Fields.has
  generalize Fields.get? as name = x at hrel ⊢
  generalize Fields.get? bs name = y at hrel ⊢
  cases hrel <;> rfl

/-- Members that correspond have the same keys in the same order. -/
theorem Fields.keys_eq {as bs : List (String × Value)}
    (h : List.Forall₂ (fun a b => a.1 = b.1 ∧ a.2.equal b.2 = true) as bs) :
    as.map (·.1) = bs.map (·.1) := by
  induction h with
  | nil => rfl
  | cons hab _ ih => rw [List.map_cons, List.map_cons, hab.1, ih]

namespace Engine.Below

open MatchResult (Agrees)

variable {e e' : Engine} {r s : Resolver} {v w : Value} {p : Pattern} {text : String}

/-! ## Structures -/

/-- Items are matched one by one, with the same positions in the reports. -/
theorem checkItems (h : e.Below e') (hr : r.Alike s) {as bs : List Value}
    (hv : List.Forall₂ (fun a b => a.equal b = true) as bs) (start : Nat) :
    Extends Agrees (e.checkItems p as start r) (e'.checkItems p bs start s) := by
  refine .all_traverse? (forall₂_zipIdx hv 0) ?_
  rintro ⟨a, i⟩ ⟨b, _⟩ ⟨hab, rfl⟩
  exact (h.check hab hr).map fun _ _ hm => hm.under _ _

/-- The declared keys that are present are the same, with equal values. -/
theorem presentKeys {keys : List (String × Pattern)} {as bs : List (String × Value)}
    (hv : List.Forall₂ (fun a b => a.1 = b.1 ∧ a.2.equal b.2 = true) as bs) :
    List.Forall₂ (fun a b => a.1 = b.1 ∧ a.2.1 = b.2.1 ∧ a.2.2.equal b.2.2 = true)
      (presentKeys keys as) (presentKeys keys bs) := by
  refine forall₂_filterMap ?_
  rintro ⟨key, p⟩ -
  have hrel := Fields.get?_rel hv (Key.base key)
  dsimp only
  generalize Fields.get? as (Key.base key) = x at hrel ⊢
  generalize Fields.get? bs (Key.base key) = y at hrel ⊢
  cases hrel with
  | none => exact .none
  | some hxy => exact .some ⟨rfl, rfl, hxy⟩

/-- An object is matched key by key; which keys are missing or unexpected depends on the keys
alone. -/
theorem checkObject (h : e.Below e') (hr : r.Alike s) (hv : v.equal w = true)
    (keys : List (String × Pattern)) (title : Option String) :
    Extends Agrees (e.checkObject keys title v r) (e'.checkObject keys title w s) := by
  cases Value.same_of_equal hv with
  | object hm =>
    refine Extends.bind (R := List.Forall₂ Agrees) (.traverse? (presentKeys hm) ?_) ?_
    · rintro ⟨_, _, x⟩ ⟨_, _, y⟩ ⟨rfl, rfl, hxy⟩
      exact (h.check hxy hr).map fun _ _ ha => ha.under _ _
    · intro rs rs' hrs
      refine .some (.all (List.rel_append (List.rel_append ?_ ?_) hrs))
      · simp only [unexpectedKeys, Fields.keys_eq hm]
        exact forall₂_map_same _ fun _ => (Agrees.fail _ _).under _ _
      · simp only [missingKeys, Fields.has_eq hm]
        exact forall₂_map_same _ fun _ => (Agrees.fail _ _).under _ _
  | null | boolean | number | string | array | xml => exact .some rfl

/-- Elements are matched in pairs, up to the shorter list. -/
theorem checkElements (h : e.Below e') (hr : r.Alike s) (elements : List Pattern)
    {as bs : List Value} (hv : List.Forall₂ (fun a b => a.equal b = true) as bs) :
    Extends (List.Forall₂ Agrees) (e.checkElements elements as r)
      (e'.checkElements elements bs s) := by
  refine .traverse? (forall₂_zipIdx (forall₂_zip_left elements hv) 0) ?_
  rintro ⟨⟨p, a⟩, i⟩ ⟨⟨_, b⟩, _⟩ ⟨⟨rfl, hab⟩, rfl⟩
  exact (h.check hab hr).map fun _ _ hm => hm.under _ _

/-- An array is matched by its length and then element by element. -/
theorem checkArray (h : e.Below e') (hr : r.Alike s) (hv : v.equal w = true)
    (elements : List Pattern) :
    Extends Agrees (e.checkArray elements v r) (e'.checkArray elements w s) := by
  cases Value.same_of_equal hv with
  | @array as bs hi =>
    have hlen := hi.length_eq
    unfold Engine.checkArray
    generalize Pattern.splitRest elements = split
    obtain ⟨fixed, rest⟩ := split
    cases rest with
    | none =>
      simp only [← hlen]
      split
      · exact .some rfl
      · exact (h.checkElements hr fixed hi).bind fun _ _ hh =>
          .some (.all (List.rel_append hh (.cons (.refl _) .nil)))
    | some rest =>
      simp only [← hlen]
      split
      · exact .some rfl
      · refine (h.checkElements hr fixed hi).bind fun _ _ hh => ?_
        refine (h.checkItems hr (List.forall₂_drop _ hi) _).bind fun _ _ ht => ?_
        exact .some (.all (List.rel_append hh (.cons ht .nil)))
  | null | boolean | number | string | object | xml => exact .some rfl

/-- A list is matched by its length and then item by item. -/
theorem checkList (h : e.Below e') (hr : r.Alike s) (hv : v.equal w = true) (name : String)
    (min : Nat) : Extends Agrees (e.checkList p name min v r) (e'.checkList p name min w s) := by
  cases Value.same_of_equal hv with
  | array hi =>
    simp only [Engine.checkList, hi.length_eq]
    split
    · exact .some rfl
    · exact h.checkItems hr hi 0
  | null | boolean | number | string | object | xml => exact .some rfl

/-- Whether a text is read is the same, since what is read is. -/
theorem reads (h : e.Below e') (hr : r.Alike s) :
    Extends Eq (e.reads p text r) (e'.reads p text s) := by
  have hp := h.parse p text hr
  unfold Engine.reads
  cases hx : e.parse p text r with
  | ok v =>
    obtain ⟨_, hy, rfl⟩ := hp.1 v hx
    rw [hy]
    exact .some rfl
  | error err =>
    obtain ⟨_, hy⟩ := hp.2 err hx
    rw [hy]
    exact .some rfl
  | unfinished => exact .none

/-- The key of a dictionary is matched as a text. -/
theorem checkKey (h : e.Below e') (hr : r.Alike s) (name : String) :
    Extends Agrees (e.checkKey p name r) (e'.checkKey p name s) :=
  (h.reads hr).map fun _ _ hb => by subst hb; exact .refl _

/-- A dictionary matches each of its members by key and by value. -/
theorem checkDictionary (h : e.Below e') (hr : r.Alike s) (hv : v.equal w = true)
    (key value : Pattern) :
    Extends Agrees (e.checkDictionary key value v r) (e'.checkDictionary key value w s) := by
  cases Value.same_of_equal hv with
  | object hm =>
    refine .all_traverse? hm ?_
    rintro ⟨name, x⟩ ⟨_, y⟩ ⟨rfl, hxy⟩
    refine (h.checkKey hr name).bind fun _ _ hk => ?_
    refine (h.check hxy hr).bind fun _ _ hval => ?_
    exact .some ((Agrees.all (.cons hk (.cons hval .nil))).under _ _)
  | null | boolean | number | string | array | xml => exact .some rfl

/-! ## Unions, references and encoded patterns -/

/-- The failure of a union reports the failures of its members, in both runs of the same kind. -/
theorem unionFailure (members : List Pattern) {rs rs' : List MatchResult}
    (hrs : List.Forall₂ Agrees rs rs') :
    (Engine.unionFailure members rs v).Agrees (Engine.unionFailure members rs' w) := by
  unfold Engine.unionFailure
  split
  · rfl
  · have hzip := forall₂_zip_left members hrs
    have hf : List.Forall₂ (fun a b => a.1 = b.1 ∧ Agrees a.2 b.2)
        ((members.zip rs).filter fun a => !a.1.isNull)
        ((members.zip rs').filter fun a => !a.1.isNull) :=
      List.rel_filter (fun _ _ hab => by simp only [hab.1]) hzip
    generalize (members.zip rs).filter _ = as at hf ⊢
    generalize (members.zip rs').filter _ = bs at hf ⊢
    have hall : (MatchResult.all (as.map fun a => a.2.under a.1.branchCrumb)).Agrees
        (.all (bs.map fun a => a.2.under a.1.branchCrumb)) := by
      refine Agrees.all ?_
      rw [List.forall₂_map_left_iff, List.forall₂_map_right_iff]
      exact hf.imp fun _ _ hab => hab.2.under _ _
    cases hf with
    | nil => exact hall
    | cons hab htail =>
      cases htail with
      | nil => exact hab.2
      | cons _ _ => exact hall

/-- A union accepts by one of its members, whose verdicts agree. -/
theorem checkUnion (h : e.Below e') (hr : r.Alike s) (hv : v.equal w = true)
    (members : List Pattern) :
    Extends Agrees (e.checkUnion members v r) (e'.checkUnion members w s) := by
  refine Extends.bind (R := List.Forall₂ Agrees) (.traverse?_same fun _ _ => h.check hv hr) ?_
  intro rs rs' hrs
  rw [Agrees.any_isSuccess_eq hrs]
  refine .some ?_
  split
  · exact .refl _
  · exact unionFailure members hrs

/-- Equal values are equal to the same exact values. -/
theorem checkExact (value : Value) (hv : v.equal w = true) :
    (Engine.checkExact value v).Agrees (Engine.checkExact value w) := by
  have hb : (value == v) = (value == w) := Value.equal_congr hv
  unfold Engine.checkExact
  rw [hb]
  split <;> rfl

/-- A reference matches as what it stands for, which is the same in alike resolvers. -/
theorem checkReference (h : e.Below e') (hr : r.Alike s) (hv : v.equal w = true)
    (name : String) : Extends Agrees (e.checkReference name v r) (e'.checkReference name w s) := by
  unfold Engine.checkReference
  rw [hr.resolve]
  split
  · exact h.check hv hr
  · exact .some rfl
  · exact .some rfl

/-- A text is accepted if it can be read, and a text is equal only to itself. -/
theorem checkInString (h : e.Below e') (hr : r.Alike s) (hv : v.equal w = true)
    (type : Pattern) : Extends Agrees (e.checkInString type v r) (e'.checkInString type w s) := by
  cases Value.same_of_equal hv with
  | string text =>
    have hp := h.parse type text hr
    unfold Engine.checkInString
    cases hx : e.parse type text r with
    | ok v =>
      obtain ⟨_, hy, -⟩ := hp.1 v hx
      simp only [hx, hy]
      exact .some rfl
    | error err =>
      obtain ⟨_, hy⟩ := hp.2 err hx
      simp only [hx, hy]
      exact .some rfl
    | unfinished =>
      simp only [hx]
      exact .none
  | null | boolean | number | object | array | xml => exact .some rfl

/-- The pieces of a text are the same, so each of them is read alike. -/
theorem checkCsv (h : e.Below e') (hr : r.Alike s) (hv : v.equal w = true) (item : Pattern) :
    Extends Agrees (e.checkCsv item v r) (e'.checkCsv item w s) := by
  cases Value.same_of_equal hv with
  | string text =>
    refine Extends.bind (R := List.Forall₂ Agrees) (.traverse?_same ?_) fun _ _ hrs =>
      .some (.all hrs)
    rintro ⟨part, i⟩ -
    have hp := h.parse item part hr
    cases hx : e.parse item part r with
    | ok v =>
      obtain ⟨_, hy, -⟩ := hp.1 v hx
      simp only [hx, hy]
      exact .some rfl
    | error err =>
      obtain ⟨_, hy⟩ := hp.2 err hx
      simp only [hx, hy]
      exact .some ((Agrees.fail _ _).under _ _)
    | unfinished =>
      simp only [hx]
      exact .none
  | null | boolean | number | object | array | xml => exact .some rfl

end Engine.Below

end DataContract
