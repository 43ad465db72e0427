import DataContract.Engine
import Mathlib.Data.List.Forall2

/-!
# Verdicts

A match or a comparison on a budget ends in a success, ends in a failure, or does not end. This
module reads the two endings off the aggregates that matching is made of, and compares two
computations of which the second knows at least what the first one knows (`Extends`,
`Outcome.Extends`).
-/

namespace DataContract

@[simp] theorem MatchResult.isSuccess_fail (message : String) :
    (fail message).isSuccess = false := rfl

@[simp] theorem MatchResult.isSuccess_mismatch (expected actual : String) :
    (mismatch expected actual).isSuccess = false := rfl

/-- The computation has ended in a success. -/
def Succeeds (x : Option MatchResult) : Prop :=
  x = some .success

/-- The computation has ended in a failure. -/
def Fails (x : Option MatchResult) : Prop :=
  ∃ f, x = some (.failure f)

section
variable {α β : Type} {x : Option MatchResult} {m : MatchResult}

@[simp] theorem succeeds_some : Succeeds (some m) ↔ m.isSuccess = true := by
  cases m <;> simp [Succeeds]

@[simp] theorem fails_some : Fails (some m) ↔ m.isSuccess = false := by
  cases m <;> simp [Fails]

@[simp] theorem not_succeeds_none : ¬ Succeeds none := nofun

@[simp] theorem not_fails_none : ¬ Fails none := nofun

/-- A computation that has ended has ended in one of the two ways. -/
theorem succeeds_or_fails (h : x = some m) : Succeeds x ∨ Fails x := by
  subst h
  cases m with
  | success => exact .inl rfl
  | failure f => exact .inr ⟨f, rfl⟩

/-- No computation ends in both ways. -/
theorem Succeeds.not_fails (h : Succeeds x) : ¬ Fails x := by
  rintro ⟨f, hf⟩
  exact nomatch h.symm.trans hf

@[simp] theorem succeeds_map_under {crumb : String} :
    Succeeds (x.map (·.under crumb)) ↔ Succeeds x := by
  cases x <;> simp

@[simp] theorem fails_map_under {crumb : String} :
    Fails (x.map (·.under crumb)) ↔ Fails x := by
  cases x <;> simp

/-- A sequence succeeds in what follows the value of its first part. -/
theorem succeeds_bind {y : Option α} {g : α → Option MatchResult} :
    Succeeds (y >>= g) ↔ ∃ a, y = some a ∧ Succeeds (g a) := by
  cases y <;> simp

/-- A sequence fails in what follows the value of its first part. -/
theorem fails_bind {y : Option α} {g : α → Option MatchResult} :
    Fails (y >>= g) ↔ ∃ a, y = some a ∧ Fails (g a) := by
  cases y <;> simp

end

/-! ## Traversals -/

section
variable {α β : Type} {f : α → Option β} {l : List α} {bs : List β}

/-- What is done with an element of a traversal that has ended has ended. -/
theorem exists_of_traverse? (h : traverse? f l = some bs) {a : α} (ha : a ∈ l) :
    ∃ b ∈ bs, f a = some b := by
  have hmem : f a ∈ bs.map some := traverse?_eq_some_iff.1 h ▸ List.mem_map_of_mem ha
  obtain ⟨b, hb, he⟩ := List.mem_map.1 hmem
  exact ⟨b, hb, he.symm⟩

/-- A value of a traversal is the value of some element. -/
theorem exists_of_mem_traverse? (h : traverse? f l = some bs) {b : β} (hb : b ∈ bs) :
    ∃ a ∈ l, f a = some b := by
  have hmem : some b ∈ l.map f := traverse?_eq_some_iff.1 h ▸ List.mem_map_of_mem hb
  exact List.mem_map.1 hmem

/-- Where the computation for every element has ended, the traversal has. -/
theorem exists_traverse? (h : ∀ a ∈ l, ∃ b, f a = some b) : ∃ bs, traverse? f l = some bs := by
  induction l with
  | nil => exact ⟨[], rfl⟩
  | cons a l ih =>
    obtain ⟨b, hb⟩ := h a List.mem_cons_self
    obtain ⟨bs, hbs⟩ := ih fun a ha => h a (List.mem_cons_of_mem _ ha)
    exact ⟨b :: bs, by rw [traverse?, hb, hbs]; rfl⟩

/-- Functions that agree on the elements of a list have the same traversal of it. -/
theorem traverse?_congr {g : α → Option β} (h : ∀ a ∈ l, f a = g a) :
    traverse? f l = traverse? g l := by
  induction l with
  | nil => rfl
  | cons a l ih =>
    rw [traverse?, traverse?, h a List.mem_cons_self,
      ih fun b hb => h b (List.mem_cons_of_mem _ hb)]

/-- Where a question was answered in the negative it was asked of every element. -/
theorem eq_some_false_of_any? {p : α → Option Bool} (h : any? p l = some false) {a : α}
    (ha : a ∈ l) : p a = some false := by
  induction l with
  | nil => cases ha
  | cons b l ih =>
    rw [any?] at h
    split at h
    · cases h
    · next hb =>
      rcases List.mem_cons.1 ha with rfl | ha
      · exact hb
      · exact ih h ha
    · cases h

end

section
variable {α : Type} {f : α → Option MatchResult} {l : List α} {rs : List MatchResult}

/-- All results of a traversal are successes exactly when every element succeeds. -/
theorem all_isSuccess_iff (h : traverse? f l = some rs) :
    rs.all MatchResult.isSuccess = true ↔ ∀ a ∈ l, Succeeds (f a) := by
  rw [List.all_eq_true]
  constructor
  · intro hall a ha
    obtain ⟨m, hm, he⟩ := exists_of_traverse? h ha
    rw [he, succeeds_some]
    exact hall m hm
  · intro hall m hm
    obtain ⟨a, ha, he⟩ := exists_of_mem_traverse? h hm
    exact succeeds_some.1 (he ▸ hall a ha)

/-- If not all results of a traversal are successes, some element fails. -/
theorem exists_fails (h : traverse? f l = some rs)
    (hrs : rs.all MatchResult.isSuccess = false) : ∃ a ∈ l, Fails (f a) := by
  obtain ⟨m, hm, hs⟩ := List.all_eq_false.1 hrs
  obtain ⟨a, ha, he⟩ := exists_of_mem_traverse? h hm
  exact ⟨a, ha, he ▸ fails_some.2 (Bool.eq_false_iff.2 hs)⟩

/-- An aggregate over a traversal succeeds exactly when every element does. -/
theorem succeeds_all_traverse :
    Succeeds (traverse? f l >>= fun rs => some (.all rs)) → ∀ a ∈ l, Succeeds (f a) := by
  intro h
  obtain ⟨rs, hrs, hall⟩ := succeeds_bind.1 h
  exact (all_isSuccess_iff hrs).1 (by simpa using hall)

/-- An aggregate over a traversal fails in some element. -/
theorem fails_all_traverse :
    Fails (traverse? f l >>= fun rs => some (.all rs)) → ∃ a ∈ l, Fails (f a) := by
  intro h
  obtain ⟨rs, hrs, hall⟩ := fails_bind.1 h
  exact exists_fails hrs (by simpa using hall)

end

/-! ## Knowing at least as much -/

/-- Where the first computation has ended, the second one has, with a related value. -/
def Extends {α β : Type} (R : α → β → Prop) (x : Option α) (y : Option β) : Prop :=
  ∀ a, x = some a → ∃ b, y = some b ∧ R a b

/-- Where the first computation has ended, the second one has: with a related value, or also with
an error. -/
def Outcome.Extends {α β : Type} (R : α → β → Prop) (x : Outcome α) (y : Outcome β) : Prop :=
  (∀ a, x = .ok a → ∃ b, y = .ok b ∧ R a b) ∧ ∀ e, x = .error e → ∃ e', y = .error e'

/-- The results are both successes or both failures. -/
def MatchResult.Agrees (a b : MatchResult) : Prop :=
  a.isSuccess = b.isSuccess

namespace MatchResult.Agrees

/-- Every result agrees with itself. -/
theorem refl (a : MatchResult) : a.Agrees a := rfl

/-- Failures agree, whatever they say. -/
theorem fail (s t : String) : (MatchResult.fail s).Agrees (.fail t) := rfl

/-- Agreement does not depend on the breadcrumbs. -/
theorem under {a b : MatchResult} (h : a.Agrees b) (c d : String) :
    (a.under c).Agrees (b.under d) := by
  simpa [Agrees] using h

/-- Of results that agree in pairs, all are a success or not in both lists. -/
theorem all_isSuccess_eq {as bs : List MatchResult} (h : List.Forall₂ Agrees as bs) :
    as.all isSuccess = bs.all isSuccess := by
  induction h with
  | nil => rfl
  | cons hab _ ih =>
    simp only [List.all_cons, ih]
    rw [hab]

/-- Of results that agree in pairs, some is a success or none in both lists. -/
theorem any_isSuccess_eq {as bs : List MatchResult} (h : List.Forall₂ Agrees as bs) :
    as.any isSuccess = bs.any isSuccess := by
  induction h with
  | nil => rfl
  | cons hab _ ih =>
    simp only [List.any_cons, ih]
    rw [hab]

/-- Combining results that agree in pairs gives results that agree. -/
theorem all {as bs : List MatchResult} (h : List.Forall₂ Agrees as bs) :
    (MatchResult.all as).Agrees (.all bs) := by
  simpa [Agrees] using all_isSuccess_eq h

end MatchResult.Agrees

namespace Extends

variable {α β γ δ : Type} {R : α → β → Prop} {S : γ → δ → Prop} {x : Option α} {y : Option β}

/-- Everything knows at least as much as a computation that has not ended. -/
theorem none : Extends R none y := nofun

/-- A related value is at least as much. -/
theorem some {a : α} {b : β} (h : R a b) : Extends R (some a) (some b) := by
  rintro _ ⟨rfl⟩
  exact ⟨b, rfl, h⟩

/-- Knowing at least as much is kept by two computations in a row. -/
theorem bind {f : α → Option γ} {g : β → Option δ} (h : Extends R x y)
    (hfg : ∀ a b, R a b → Extends S (f a) (g b)) : Extends S (x >>= f) (y >>= g) := by
  intro c hc
  obtain ⟨a, rfl, ha⟩ := Option.bind_eq_some_iff.1 hc
  obtain ⟨b, rfl, hab⟩ := h a rfl
  exact hfg a b hab c ha

/-- Knowing at least as much is kept by functions that take related values to related ones. -/
theorem map {f : α → γ} {g : β → δ} (h : Extends R x y) (hfg : ∀ a b, R a b → S (f a) (g b)) :
    Extends S (x.map f) (y.map g) := by
  intro c hc
  obtain ⟨a, rfl, rfl⟩ := Option.map_eq_some_iff.1 hc
  obtain ⟨b, rfl, hab⟩ := h a rfl
  exact ⟨g b, rfl, hfg a b hab⟩

/-- Traversals extend each other as their elements do. -/
theorem traverse? {Q : γ → δ → Prop} {f : γ → Option α} {g : δ → Option β} {l : List γ}
    {l' : List δ} (hl : List.Forall₂ Q l l') (hfg : ∀ a b, Q a b → Extends R (f a) (g b)) :
    Extends (List.Forall₂ R) (traverse? f l) (traverse? g l') := by
  induction hl with
  | nil => exact .some .nil
  | cons hab _ ih =>
    intro cs hcs
    simp only [DataContract.traverse?] at hcs ⊢
    split at hcs
    · next c hc =>
      obtain ⟨d, hd, hcd⟩ := hfg _ _ hab c hc
      rw [hd]
      exact ih.map (fun _ _ h => .cons hcd h) cs hcs
    · cases hcs

/-- The same elements are traversed in both. -/
theorem traverse?_same {f : γ → Option α} {g : γ → Option β} {l : List γ}
    (hfg : ∀ a ∈ l, Extends R (f a) (g a)) :
    Extends (List.Forall₂ R) (DataContract.traverse? f l) (DataContract.traverse? g l) := by
  have hl : List.Forall₂ (fun a b => a = b ∧ a ∈ l) l l :=
    List.forall₂_same.2 fun a ha => ⟨rfl, ha⟩
  refine traverse? hl ?_
  rintro a _ ⟨rfl, ha⟩
  exact hfg a ha

/-- An aggregate over traversals whose elements extend each other. -/
theorem all_traverse? {Q : γ → δ → Prop} {f : γ → Option MatchResult}
    {g : δ → Option MatchResult} {l : List γ} {l' : List δ} (hl : List.Forall₂ Q l l')
    (hfg : ∀ a b, Q a b → Extends MatchResult.Agrees (f a) (g b)) :
    Extends MatchResult.Agrees (DataContract.traverse? f l >>= fun rs => Option.some (.all rs))
      (DataContract.traverse? g l' >>= fun rs => Option.some (.all rs)) :=
  (traverse? hl hfg).bind fun _ _ h => .some (.all h)

/-- What knows at least as much as a success succeeds. -/
theorem succeeds {x y : Option MatchResult} (h : Extends MatchResult.Agrees x y)
    (hx : Succeeds x) : Succeeds y := by
  obtain ⟨b, rfl, hb⟩ := h _ hx
  exact succeeds_some.2 hb.symm

/-- What knows at least as much as a failure fails. -/
theorem fails {x y : Option MatchResult} (h : Extends MatchResult.Agrees x y)
    (hx : Fails x) : Fails y := by
  obtain ⟨f, hf⟩ := hx
  obtain ⟨b, rfl, hb⟩ := h _ hf
  exact fails_some.2 hb.symm

end Extends

namespace Outcome.Extends

variable {α β γ δ : Type} {R : α → β → Prop} {S : γ → δ → Prop} {x : Outcome α} {y : Outcome β}

/-- Everything knows at least as much as an outcome that has not finished. -/
theorem unfinished : Outcome.Extends R unfinished y := ⟨nofun, nofun⟩

/-- A related value is at least as much. -/
theorem ok {a : α} {b : β} (h : R a b) : Outcome.Extends R (ok a) (ok b) :=
  ⟨fun _ he => by cases he; exact ⟨b, rfl, h⟩, nofun⟩

/-- One error is as much as another. -/
theorem error (e e' : ContractError) : Outcome.Extends R (error e) (error e') :=
  ⟨nofun, fun _ _ => ⟨e', rfl⟩⟩

/-- Knowing at least as much is kept by functions that take related values to related ones. -/
theorem map {f : α → γ} {g : β → δ} (h : Outcome.Extends R x y)
    (hfg : ∀ a b, R a b → S (f a) (g b)) : Outcome.Extends S (x.map f) (y.map g) := by
  cases x with
  | ok a =>
    obtain ⟨b, rfl, hab⟩ := h.1 a rfl
    exact ok (hfg a b hab)
  | error e =>
    obtain ⟨e', rfl⟩ := h.2 e rfl
    exact error e e'
  | unfinished => exact unfinished

end Outcome.Extends

end DataContract
