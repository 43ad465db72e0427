import DataContract.Outcome
import Mathlib.Data.List.Forall2

/-!
# Values of outcomes

A sequence of computations gives a value only if every computation in it does, and a traversal gives
the values of its elements in their order.
-/

namespace DataContract

/-- A mapped result is a value only as the image of one. -/
theorem map_eq_ok {α β : Type} {f : α → β} {x : Except ContractError α} {b : β} :
    x.map f = .ok b ↔ ∃ a, x = .ok a ∧ f a = b := by
  cases x <;> simp [Except.map]

/-- Mapping keeps errors as they are. -/
theorem map_eq_error {α β : Type} {f : α → β} {x : Except ContractError α} {err : ContractError} :
    x.map f = .error err ↔ x = .error err := by
  cases x <;> simp [Except.map]

/-- A sequence of two steps gives a value only where both do. -/
theorem bind_eq_ok {α β : Type} {f : α → Except ContractError β} {x : Except ContractError α}
    {b : β} : (x >>= f) = .ok b ↔ ∃ a, x = .ok a ∧ f a = .ok b := by
  cases x <;> simp [bind, Except.bind]

/-- What is made of the elements of a list one by one is made of some element. -/
theorem exists_of_mem_mapM {α β : Type} {f : α → Except ContractError β} {l : List α}
    {bs : List β} (h : l.mapM f = .ok bs) {b : β} (hb : b ∈ bs) : ∃ a ∈ l, f a = .ok b := by
  induction l generalizing bs with
  | nil =>
    cases h
    cases hb
  | cons a l ih =>
    rw [List.mapM_cons] at h
    obtain ⟨c, hc, h⟩ := bind_eq_ok.1 h
    obtain ⟨cs, hcs, h⟩ := bind_eq_ok.1 h
    cases h
    rcases List.mem_cons.1 hb with rfl | hb
    · exact ⟨a, List.mem_cons_self, hc⟩
    · obtain ⟨a', ha', he⟩ := ih hcs hb
      exact ⟨a', List.mem_cons_of_mem _ ha', he⟩

/-- What is done for every element of a list is done for each. -/
theorem eq_ok_of_forM {α : Type} {f : α → Except ContractError Unit} {l : List α}
    (h : l.forM f = .ok ()) {a : α} (ha : a ∈ l) : f a = .ok () := by
  induction l with
  | nil => cases ha
  | cons b l ih =>
    obtain ⟨u, hb, hl⟩ := bind_eq_ok.1 h
    rcases List.mem_cons.1 ha with rfl | ha
    · exact hb
    · exact ih hl ha

/-- Lists of which the elements in the same places have the same image have the same images. -/
theorem map_eq_of_forall₂ {α β γ : Type} {R : α → β → Prop} {l : List α} {bs : List β} {g : α → γ}
    {g' : β → γ} (h : List.Forall₂ R l bs) (hg : ∀ a b, R a b → g a = g' b) :
    l.map g = bs.map g' := by
  induction h with
  | nil => rfl
  | cons hab _ ih => rw [List.map_cons, List.map_cons, hg _ _ hab, ih]

/-- Every element on the left of related lists has its partner on the right. -/
theorem exists_right_of_forall₂ {α β : Type} {R : α → β → Prop} {l : List α} {bs : List β}
    (h : List.Forall₂ R l bs) {a : α} (ha : a ∈ l) : ∃ b ∈ bs, R a b := by
  induction h with
  | nil => cases ha
  | cons hab _ ih =>
    rcases List.mem_cons.1 ha with rfl | ha
    · exact ⟨_, List.mem_cons_self, hab⟩
    · obtain ⟨b, hb, hr⟩ := ih ha
      exact ⟨b, List.mem_cons_of_mem _ hb, hr⟩

/-- Every element on the right of related lists has its partner on the left. -/
theorem exists_left_of_forall₂ {α β : Type} {R : α → β → Prop} {l : List α} {bs : List β}
    (h : List.Forall₂ R l bs) {b : β} (hb : b ∈ bs) : ∃ a ∈ l, R a b :=
  exists_right_of_forall₂ h.flip hb

/-- If every element of a list stands in a relation to whatever is in the same place, it does to
what is taken from there. -/
theorem forall₂_of_mem {α β : Type} {R : α → β → Prop} {l : List α} {places : List (List β)}
    {bs : List β} (h : List.Forall₂ (fun a place => ∀ b ∈ place, R a b) l places)
    (hb : List.Forall₂ (· ∈ ·) bs places) : List.Forall₂ R l bs := by
  induction h generalizing bs with
  | nil =>
    cases hb
    exact .nil
  | cons ha _ ih =>
    cases hb with
    | cons hb hbs => exact .cons (ha _ hb) (ih hbs)

/-- Two relations that agree on the elements of lists agree on the lists. -/
theorem forall₂_congr_mem {α β : Type} {R S : α → β → Prop} {l : List α} {bs : List β}
    (h : ∀ a ∈ l, ∀ b ∈ bs, R a b ↔ S a b) : List.Forall₂ R l bs ↔ List.Forall₂ S l bs := by
  rw [List.forall₂_iff_zip, List.forall₂_iff_zip]
  refine and_congr_right fun _ => ⟨fun hall a b hab => ?_, fun hall a b hab => ?_⟩
  · exact (h a (List.of_mem_zip hab).1 b (List.of_mem_zip hab).2).1 (hall hab)
  · exact (h a (List.of_mem_zip hab).1 b (List.of_mem_zip hab).2).2 (hall hab)

namespace Outcome

variable {α β : Type} {x : Outcome α}

/-- A sequence of two steps finishes with a value only where both do. -/
theorem bind_eq_ok {f : α → Outcome β} {b : β} :
    (x >>= f) = ok b ↔ ∃ a, x = ok a ∧ f a = ok b := by
  cases x <;> simp

/-- A mapped outcome is a value only as the image of one. -/
theorem map_eq_ok {f : α → β} {b : β} : x.map f = ok b ↔ ∃ a, x = ok a ∧ f a = b := by
  cases x <;> simp [map]

/-- A lifted result is a value where the result is that value. -/
theorem ofExcept_eq_ok {x : Except ContractError α} {a : α} : ofExcept x = ok a ↔ x = .ok a := by
  cases x <;> simp [ofExcept]

/-- A lifted result is an error where the result is that error. -/
theorem ofExcept_eq_error {x : Except ContractError α} {err : ContractError} :
    ofExcept x = error err ↔ x = .error err := by
  cases x <;> simp [ofExcept]

/-- A lifted result has always finished. -/
theorem ofExcept_ne_unfinished (x : Except ContractError α) : ofExcept x ≠ unfinished := by
  cases x <;> exact nofun

/-- A lifted option is a value where the option holds it. -/
theorem ofOption_eq_ok {x : Option α} {a : α} : ofOption x = ok a ↔ x = some a := by
  cases x <;> simp [ofOption]

/-- A sequence of two steps ends in an error where the first one does, or the second on its
value. -/
theorem bind_eq_error {f : α → Outcome β} {err : ContractError} :
    (x >>= f) = error err ↔ x = error err ∨ ∃ a, x = ok a ∧ f a = error err := by
  cases x <;> simp

/-- Mapping keeps errors as they are. -/
theorem map_eq_error {f : α → β} {err : ContractError} : x.map f = error err ↔ x = error err := by
  cases x <;> simp [map]

/-- The error of a traversal is the error of some element. -/
theorem exists_of_traverse_error {f : α → Outcome β} {l : List α} {err : ContractError}
    (h : traverse f l = error err) : ∃ a ∈ l, f a = error err := by
  induction l with
  | nil => cases h
  | cons a l ih =>
    rw [traverse] at h
    split at h
    · obtain ⟨b, hb, he⟩ := ih (map_eq_error.1 h)
      exact ⟨b, List.mem_cons_of_mem _ hb, he⟩
    · next hfa =>
      cases h
      exact ⟨a, List.mem_cons_self, hfa⟩
    · cases h

/-- The values of a traversal are those of its elements, one for each. -/
theorem forall₂_of_traverse {f : α → Outcome β} {l : List α} {bs : List β}
    (h : traverse f l = ok bs) : List.Forall₂ (fun a b => f a = ok b) l bs := by
  have hmap := traverse_eq_ok_iff.1 h
  clear h
  induction l generalizing bs with
  | nil =>
    cases bs with
    | nil => exact .nil
    | cons b bs => cases hmap
  | cons a l ih =>
    cases bs with
    | nil => cases hmap
    | cons b bs =>
      obtain ⟨hab, hl⟩ := List.cons_eq_cons.1 hmap
      exact .cons hab (ih hl)

/-- A value of a traversal is the value of some element. -/
theorem exists_of_mem_traverse {f : α → Outcome β} {l : List α} {bs : List β}
    (h : traverse f l = ok bs) {b : β} (hb : b ∈ bs) : ∃ a ∈ l, f a = ok b := by
  have hmem : ok b ∈ l.map f := traverse_eq_ok_iff.1 h ▸ List.mem_map_of_mem hb
  exact List.mem_map.1 hmem

/-- What is done with an element of a traversal that gives values gives a value. -/
theorem exists_of_traverse {f : α → Outcome β} {l : List α} {bs : List β}
    (h : traverse f l = ok bs) {a : α} (ha : a ∈ l) : ∃ b ∈ bs, f a = ok b := by
  have hmem : f a ∈ bs.map ok := traverse_eq_ok_iff.1 h ▸ List.mem_map_of_mem ha
  obtain ⟨b, hb, he⟩ := List.mem_map.1 hmem
  exact ⟨b, hb, he.symm⟩

/-- Computations with the same outcome on every element, if it is known, have the same traversal, if
that is known. -/
theorem traverse_eq_of_ne_unfinished {f g : α → Outcome β} {l : List α}
    (h : ∀ a ∈ l, f a ≠ unfinished → f a = g a) (hl : traverse f l ≠ unfinished) :
    traverse f l = traverse g l := by
  induction l with
  | nil => rfl
  | cons a l ih =>
    obtain ⟨ha, hrest⟩ := List.forall_mem_cons.1 h
    rw [traverse] at hl ⊢
    rw [traverse]
    cases hfa : f a with
    | ok b =>
      rw [hfa] at hl
      rw [← ha (by simp [hfa]), hfa]
      dsimp only at hl ⊢
      rw [ih hrest]
      intro hunfinished
      rw [hunfinished] at hl
      exact hl rfl
    | error err => rw [← ha (by simp [hfa]), hfa]
    | unfinished =>
      rw [hfa] at hl
      exact absurd rfl hl

/-! ### Outcomes that are known -/

/-- The outcome is known, and if it is a value, the condition holds of it. -/
def Finishes (P : α → Prop) : Outcome α → Prop
  | ok a => P a
  | error _ => True
  | unfinished => False

section
variable {P P' : α → Prop} {Q : β → Prop}

/-- What finishes did not run out of budget. -/
theorem Finishes.ne_unfinished (h : x.Finishes P) : x ≠ unfinished := by
  rintro rfl
  exact h

/-- What did not run out of budget finishes. -/
theorem finishes_of_ne_unfinished (h : x ≠ unfinished) : x.Finishes fun _ => True := by
  cases x with
  | ok a => trivial
  | error err => trivial
  | unfinished => exact h rfl

/-- A finishing outcome keeps every weaker promise about its value. -/
theorem Finishes.imp (h : x.Finishes P) (hP : ∀ a, P a → P' a) : x.Finishes P' := by
  cases x with
  | ok a => exact hP a h
  | error err => trivial
  | unfinished => exact h

/-- A sequence finishes when its first step does, and the second does on whatever the first
gives. -/
theorem Finishes.bind {f : α → Outcome β} (h : x.Finishes P) (hf : ∀ a, P a → (f a).Finishes Q) :
    (x >>= f).Finishes Q := by
  cases x with
  | ok a => exact hf a h
  | error err => trivial
  | unfinished => exact h

/-- A mapped outcome finishes with the image of the value. -/
theorem Finishes.map {f : α → β} (h : x.Finishes P) (hf : ∀ a, P a → Q (f a)) :
    (x.map f).Finishes Q := by
  cases x with
  | ok a => exact hf a h
  | error err => trivial
  | unfinished => exact h

/-- A traversal finishes if it does with every element. -/
theorem finishes_traverse {f : α → Outcome β} {l : List α} (h : ∀ a ∈ l, (f a).Finishes Q) :
    (traverse f l).Finishes fun bs => ∀ b ∈ bs, Q b := by
  induction l with
  | nil => exact nofun
  | cons a l ih =>
    obtain ⟨ha, hl⟩ := List.forall_mem_cons.1 h
    rw [traverse]
    cases hfa : f a with
    | ok b =>
      rw [hfa] at ha
      exact (ih hl).map fun bs hbs => List.forall_mem_cons.2 ⟨ha, hbs⟩
    | error err => trivial
    | unfinished =>
      rw [hfa] at ha
      exact ha

end

/-- Computations that take every element of a list to its value, whatever its index is, give the
list of the values. -/
theorem traverse_zipIdx_eq_ok {f : α × Nat → Outcome β} {l : List α}
    {bs : List β} (h : List.Forall₂ (fun a b => ∀ i, f (a, i) = ok b) l bs) (k : Nat) :
    traverse f (l.zipIdx k) = ok bs := by
  induction h generalizing k with
  | nil => rfl
  | cons hab _ ih =>
    rw [List.zipIdx_cons, traverse, hab, ih]
    rfl

end Outcome

end DataContract
