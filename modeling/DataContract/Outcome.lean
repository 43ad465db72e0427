import DataContract.Error

/-!
# Outcomes

Reading and generating follow references, and a registry may send them in circles, so they run on a
budget. Their outcome is a value, an error, or `unfinished`: the budget ran out before either was
known. Matching and comparing have no errors, so there the outcome is an `Option`, with `none` for
an exhausted budget.
-/

namespace DataContract

/-- The outcome of a computation on a budget. -/
inductive Outcome (α : Type) where
  | ok (value : α)
  | error (e : ContractError)
  | unfinished

namespace Outcome

variable {α β : Type}

instance : Inhabited (Outcome α) := ⟨.unfinished⟩

/-- Goes on with the value. -/
def bind : Outcome α → (α → Outcome β) → Outcome β
  | ok a, f => f a
  | error e, _ => error e
  | unfinished, _ => unfinished

instance : Monad Outcome where
  pure := ok
  bind := bind

/-- Applies a function to the value. -/
def map (f : α → β) : Outcome α → Outcome β
  | ok a => ok (f a)
  | error e => error e
  | unfinished => unfinished

/-- The outcome of a computation that always ends. -/
def ofExcept : Except ContractError α → Outcome α
  | .ok a => ok a
  | .error e => error e

/-- The outcome of a computation without errors. -/
def ofOption : Option α → Outcome α
  | some a => ok a
  | none => unfinished

/-- Applies `f` to the elements in order, up to the first that gives no value. -/
def traverse (f : α → Outcome β) : List α → Outcome (List β)
  | [] => ok []
  | a :: l =>
    match f a with
    | ok b => (traverse f l).map (b :: ·)
    | error e => error e
    | unfinished => unfinished

@[simp] theorem pure_eq (a : α) : (pure a : Outcome α) = ok a := rfl

@[simp] theorem ok_bind (a : α) (f : α → Outcome β) : (ok a >>= f) = f a := rfl

@[simp] theorem error_bind (e : ContractError) (f : α → Outcome β) :
    ((error e : Outcome α) >>= f) = error e := rfl

@[simp] theorem unfinished_bind (f : α → Outcome β) :
    ((unfinished : Outcome α) >>= f) = unfinished := rfl

/-- A traversal gives values exactly when every element does. -/
theorem traverse_eq_ok_iff {f : α → Outcome β} {l : List α} {bs : List β} :
    traverse f l = ok bs ↔ l.map f = bs.map ok := by
  induction l generalizing bs with
  | nil => cases bs <;> simp [traverse]
  | cons a l ih =>
    cases hf : f a with
    | ok b =>
      cases ht : traverse f l with
      | ok cs =>
        have hl := ih.1 ht
        cases bs with
        | nil => simp [traverse, hf, ht, map]
        | cons d ds =>
          constructor
          · intro h
            simp only [traverse, hf, ht, map, ok.injEq, List.cons.injEq] at h
            simp [hf, h.1, hl, h.2]
          · intro h
            simp only [List.map_cons, hf, List.cons.injEq, ok.injEq] at h
            have := ih.2 h.2
            rw [ht] at this
            simp only [ok.injEq] at this
            simp [traverse, hf, ht, map, h.1, this]
      | error e =>
        constructor
        · intro h; simp [traverse, hf, ht, map] at h
        · intro h
          cases bs with
          | nil => simp at h
          | cons d ds =>
            simp only [List.map_cons, List.cons.injEq] at h
            rw [ih.2 h.2] at ht
            exact absurd ht (by simp)
      | unfinished =>
        constructor
        · intro h; simp [traverse, hf, ht, map] at h
        · intro h
          cases bs with
          | nil => simp at h
          | cons d ds =>
            simp only [List.map_cons, List.cons.injEq] at h
            rw [ih.2 h.2] at ht
            exact absurd ht (by simp)
    | error e => cases bs <;> simp [traverse, hf]
    | unfinished => cases bs <;> simp [traverse, hf]

end Outcome

/-- Applies `f` to the elements in order; nothing if one of them gives nothing. -/
def traverse? {α β : Type} (f : α → Option β) : List α → Option (List β)
  | [] => some []
  | a :: l =>
    match f a with
    | some b => (traverse? f l).map (b :: ·)
    | none => none

/-- A traversal gives values exactly when every element does. -/
theorem traverse?_eq_some_iff {α β : Type} {f : α → Option β} {l : List α} {bs : List β} :
    traverse? f l = some bs ↔ l.map f = bs.map some := by
  induction l generalizing bs with
  | nil => cases bs <;> simp [traverse?]
  | cons a l ih =>
    cases hf : f a with
    | none => cases bs <;> simp [traverse?, hf]
    | some b =>
      cases bs with
      | nil => simp [traverse?, hf]
      | cons d ds =>
        simp only [traverse?, hf, Option.map_eq_some_iff, List.map_cons, List.cons.injEq,
          Option.some.injEq]
        constructor
        · rintro ⟨cs, hc, rfl, rfl⟩
          exact ⟨rfl, ih.1 hc⟩
        · rintro ⟨rfl, h⟩
          exact ⟨ds, ih.2 h, rfl, rfl⟩

/-- Whether `p` holds of some element, asked in order up to the first of which it does. -/
def any? {α : Type} (p : α → Option Bool) : List α → Option Bool
  | [] => some false
  | a :: l =>
    match p a with
    | some true => some true
    | some false => any? p l
    | none => none

end DataContract
