import DataContract.Proofs.Generation.Errors

/-!
# Without references there is no recursion

Generation ends in a recursion only at a reference, so a pattern without references has none
(`Generation.noRecursion_ofBudget`). Its lists and dictionaries get all their elements, and are not
cut short where the expansion of a name would begin again.
-/

namespace DataContract

/-- The outcome is not the error that a value would have to contain itself. -/
def Outcome.NoRecursion {α : Type} (x : Outcome α) : Prop :=
  ∀ name, x ≠ .error (.recursion name)

namespace Pattern

/-- The pattern is no reference, and no XML element, whose type may be one. -/
def ReferenceFree : Pattern → Prop
  | .reference _ => False
  | .xml _ => False
  | _ => True

end Pattern

open Pattern (ReferenceFree)

variable {p : Pattern} {text : String} {r : Resolver} {c : Choices} {n : Nat}

/-- Reading with a pattern without references does not end in a recursion. -/
theorem Engine.noRecursion_parse (hp : p.Everywhere ReferenceFree) :
    ((ofBudget n).parse p text r).NoRecursion := by
  intro name h
  induction n generalizing p with
  | zero => cases h
  | succ n ih =>
    rcases error_of_parseStep h with ⟨_, _, _, he⟩ | ⟨q, hq, h⟩ | ⟨name, rfl, -⟩
    · cases he
    · exact ih (hp.part hq) h
    · exact hp.here

/-- Generation for a pattern without references does not end in a recursion. -/
theorem Generation.noRecursion_ofBudget (n : Nat) (hp : p.Everywhere ReferenceFree) :
    (ofBudget n p r c).NoRecursion := by
  intro name h
  induction n generalizing p c with
  | zero => cases h
  | succ n ih =>
    have hx : ∀ shape, p ≠ .xml shape := by
      rintro shape rfl
      exact hp.here
    rcases errs_of_step h hx with ⟨text, h⟩ | ⟨q, hq, c, h⟩ | ⟨name, rfl, -⟩
    · exact Engine.noRecursion_parse hp name h
    · exact ih (hp.part hq) h
    · exact hp.here

end DataContract
