import DataContract.Proofs.Closed.References
import DataContract.Proofs.Generation.Errors

/-!
# Errors of grounded patterns

Reading with a grounded pattern and generating for one end in no other errors than that a text
cannot be read and that a value would have to contain itself (`ContractError.IsInherent`). A name
that is not registered comes up nowhere.
-/

namespace DataContract

/-- The error says that a text cannot be read, or that a value would have to contain itself. -/
def ContractError.IsInherent (err : ContractError) : Prop :=
  err.IsParse ∨ ∃ name, err = .recursion name

/-- An inherent error is about no name that is missing. -/
theorem ContractError.IsInherent.ne_unknownPattern {err : ContractError} (h : err.IsInherent)
    (name : String) : err ≠ .unknownPattern name := by
  rcases h with ⟨_, _, _, rfl⟩ | ⟨_, rfl⟩
  · exact nofun
  · exact nofun

namespace Resolver

variable {r s : Resolver} {name : String} {err : ContractError}

/-- Expanding a name that is being expanded is an inherent error, and the only one. -/
theorem isInherent_of_expand (he : r.expand name = .error err) : err.IsInherent := by
  unfold expand at he
  split at he
  · cases he
    exact .inr ⟨_, rfl⟩
  · cases he

/-- Expanding a name keeps the registry. -/
theorem registry_of_expand (h : r.expand name = .ok s) : s.registry = r.registry :=
  (Alike.of_expand h).registry

end Resolver

variable {r : Resolver} {p : Pattern} {text : String} {c : Choices} {err : ContractError} {n : Nat}

/-- The names of a grounded pattern are registered, so resolving one can only go around in a
circle. -/
theorem Pattern.Grounded.isInherent_of_resolve {name : String}
    (h : (Pattern.reference name).Grounded r) (he : r.resolve name = .error err) :
    err.IsInherent := by
  rcases h.resolve with ⟨p, hp, -⟩ | ⟨n, hrec⟩
  · cases hp.symm.trans he
  · cases hrec.symm.trans he
    exact .inr ⟨n, rfl⟩

/-- Reading with a grounded pattern ends in no other errors, at any budget. -/
theorem Engine.isInherent_of_parse (hp : p.Grounded r)
    (h : (ofBudget n).parse p text r = .error err) : err.IsInherent := by
  induction n generalizing p with
  | zero => cases h
  | succ n ih =>
    rcases error_of_parseStep h with hparse | ⟨q, hq, h⟩ | ⟨name, rfl, h | ⟨q, hq, h⟩⟩
    · exact .inl hparse
    · exact ih (hp.part hq) h
    · exact hp.isInherent_of_resolve h
    · exact ih (hp.of_resolve hq) h

/-- Generating for a grounded pattern ends in no other errors, at any budget. -/
theorem Generation.isInherent_of_ofBudget (hp : p.Grounded r)
    (h : ofBudget n p r c = .error err) : err.IsInherent := by
  induction n generalizing p r c with
  | zero => cases h
  | succ n ih =>
    rcases errs_of_step h hp.ne_xml with ⟨text, h⟩ | ⟨q, hq, c, h⟩ |
      ⟨name, rfl, h | ⟨s, hs, hresolve⟩⟩
    · exact Engine.isInherent_of_parse hp h
    · exact ih (hp.part hq) h
    · exact Resolver.isInherent_of_expand h
    · have hp := hp.congr (Resolver.registry_of_expand hs)
      rcases hresolve with h | ⟨q, hq, c, h⟩
      · exact hp.isInherent_of_resolve h
      · exact ih (hp.of_resolve hq) h

end DataContract
