/-!
# Lists computed on demand

Test variants are enumerated from products that are far larger than anyone reads, so they come as
lists whose tail is computed only when it is asked for. A list may also be `stalled`: whoever
computes it ran out of budget there, and nothing is known about what would have followed.

`LazyList.toList` is the view that statements are made about: the elements before the end or the
stall. Every operation below has one equation through that view.
-/

namespace DataContract

/-- A finite list whose tail is computed on demand and may end in a stalled computation. -/
inductive LazyList (α : Type) where
  | nil
  | stalled
  | cons (head : α) (tail : Unit → LazyList α)

namespace LazyList

variable {α β : Type}

instance : Inhabited (LazyList α) := ⟨.nil⟩

/-- The elements in order, up to the end or the stall. -/
def toList : LazyList α → List α
  | nil => []
  | stalled => []
  | cons a t => a :: (t ()).toList

/-- The list ends without a stall. -/
def isComplete : LazyList α → Bool
  | nil => true
  | stalled => false
  | cons _ t => (t ()).isComplete

/-- The elements of a list that is complete. -/
def toList? : LazyList α → Option (List α)
  | nil => some []
  | stalled => none
  | cons a t => (t ()).toList?.map (a :: ·)

/-- A list given in full. -/
def ofList : List α → LazyList α
  | [] => nil
  | a :: l => cons a fun _ => ofList l

/-- The list of one element. -/
def singleton (a : α) : LazyList α :=
  cons a fun _ => nil

/-- Applies `f` to every element. -/
def map (f : α → β) : LazyList α → LazyList β
  | nil => nil
  | stalled => stalled
  | cons a t => cons (f a) fun _ => (t ()).map f

/-- The first list followed by the second, which is only computed when the first one ends. -/
def append : LazyList α → (Unit → LazyList α) → LazyList α
  | nil, rest => rest ()
  | stalled, _ => stalled
  | cons a t, rest => cons a fun _ => (t ()).append rest

/-- The lists that `f` gives for the elements, one after the other. -/
def flatMap (f : α → LazyList β) : LazyList α → LazyList β
  | nil => nil
  | stalled => stalled
  | cons a t => (f a).append fun _ => (t ()).flatMap f

/-- The elements that `p` accepts. -/
def filter (p : α → Bool) : LazyList α → LazyList α
  | nil => nil
  | stalled => stalled
  | cons a t => if p a then cons a fun _ => (t ()).filter p else (t ()).filter p

/-- The first `n` elements; what follows them is not computed. -/
def take : Nat → LazyList α → LazyList α
  | 0, _ => nil
  | _ + 1, nil => nil
  | _ + 1, stalled => stalled
  | n + 1, cons a t => cons a fun _ => (t ()).take n

@[simp] theorem toList_nil : (nil : LazyList α).toList = [] := rfl

@[simp] theorem toList_stalled : (stalled : LazyList α).toList = [] := rfl

@[simp] theorem toList_cons (a : α) (t : Unit → LazyList α) :
    (cons a t).toList = a :: (t ()).toList := rfl

@[simp] theorem toList_ofList (l : List α) : (ofList l).toList = l := by
  induction l with
  | nil => rfl
  | cons a l ih => simp [ofList, ih]

@[simp] theorem toList_singleton (a : α) : (singleton a).toList = [a] := rfl

@[simp] theorem singleton_ne_nil (a : α) : singleton a ≠ nil := nofun

@[simp] theorem toList_map (f : α → β) (l : LazyList α) : (l.map f).toList = l.toList.map f := by
  induction l with
  | nil => rfl
  | stalled => rfl
  | cons a t ih => simp [map, ih]

@[simp] theorem toList_filter (p : α → Bool) (l : LazyList α) :
    (l.filter p).toList = l.toList.filter p := by
  induction l with
  | nil => rfl
  | stalled => rfl
  | cons a t ih =>
    by_cases h : p a <;> simp [filter, h, ih]

@[simp] theorem toList_take (n : Nat) (l : LazyList α) : (l.take n).toList = l.toList.take n := by
  induction l generalizing n with
  | nil => cases n <;> rfl
  | stalled => cases n <;> rfl
  | cons a t ih =>
    cases n with
    | zero => rfl
    | succ n => simp [take, ih]

/-- Appending is list appending as long as the first list does not stall. -/
theorem toList_append {l : LazyList α} (h : l.isComplete) (rest : Unit → LazyList α) :
    (l.append rest).toList = l.toList ++ (rest ()).toList := by
  induction l with
  | nil => rfl
  | stalled => simp [isComplete] at h
  | cons a t ih => simp [append, ih () (by simpa [isComplete] using h)]

/-- A complete list has the elements of its view. -/
theorem toList?_eq_some_iff {l : LazyList α} {xs : List α} :
    l.toList? = some xs ↔ l.isComplete ∧ l.toList = xs := by
  induction l generalizing xs with
  | nil => simp [toList?, isComplete]
  | stalled => simp [toList?, isComplete]
  | cons a t ih =>
    constructor
    · intro h
      obtain ⟨ys, hy, rfl⟩ := Option.map_eq_some_iff.1 h
      obtain ⟨hc, rfl⟩ := (ih ()).1 hy
      exact ⟨by simpa [isComplete] using hc, rfl⟩
    · rintro ⟨hc, rfl⟩
      exact Option.map_eq_some_iff.2 ⟨_, (ih ()).2 ⟨by simpa [isComplete] using hc, rfl⟩, rfl⟩

end LazyList

end DataContract
