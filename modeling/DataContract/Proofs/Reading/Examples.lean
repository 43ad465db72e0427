import DataContract.Proofs.Reading
import DataContract.Variants.Example

/-!
# Examples of rows are not rejected

The example that a row has for a key is a value that was matched with the pattern of the key or
read by it, so the pattern does not reject it. Reading and taking examples are the two ways in which
a pattern makes a value of a text, and neither makes one that the pattern rejects, whatever the
registry and however the pattern is nested (`Pattern.not_rejects_of_reading`).
-/

namespace DataContract

namespace Engine

variable {p given : Pattern} {v : Value} {name : String} {row : Row} {r r' : Resolver} {n : Nat}

/-- The value of a cell was read. -/
theorem not_rejects_of_readCell (hs : v.StandsForItself r) (hr : r'.Alike r)
    (h : (ofBudget n).readCell name p row r' = .ok (.ok v)) : ¬ p.Rejects v r := by
  unfold readCell at h
  split at h
  · cases h
  · split at h
    · next hp =>
      cases h
      exact Pattern.not_rejects_of_alike_parse_of_standsForItself hs hr hp
    · cases h
    · cases h

/-- The value that is found under a name was matched or read. -/
theorem not_rejects_of_cellValue (hs : v.StandsForItself r) (hr : r'.Alike r)
    (h : (ofBudget n).cellValue name p row r' = .ok (.ok v)) : ¬ p.Rejects v r := by
  unfold cellValue at h
  split at h
  · exact not_rejects_of_readCell hs hr h
  · split at h
    · cases h
    · next hm =>
      cases h
      exact Pattern.Accepts.not_rejects ⟨n, hm⟩ (Value.equal_self _) hr
    · split at h
      · cases h
      · exact not_rejects_of_readCell hs hr h

/-- An example is an exact value, which the pattern does not reject if it stands for itself. -/
theorem exists_exact_of_rowExample_of_alike (hr : r'.Alike r)
    (h : (ofBudget n).rowExample name p row r' = .ok (some given)) :
    ∃ v, given = .exact v ∧ (v.StandsForItself r → ¬ p.Rejects v r) := by
  unfold rowExample at h
  split at h
  · cases h
  · split at h
    · cases h
    · cases h
    · next v hv =>
      cases h
      exact ⟨v, rfl, fun hl => not_rejects_of_cellValue hl hr hv⟩
    · split at h <;> cases h

/-- An example is an exact value that the pattern does not reject. -/
theorem exists_exact_of_rowExample (hl : r.config.mockMode = false) (hr : r'.Alike r)
    (h : (ofBudget n).rowExample name p row r' = .ok (some given)) :
    ∃ v, given = .exact v ∧ ¬ p.Rejects v r := by
  obtain ⟨v, hgiven, hv⟩ := exists_exact_of_rowExample_of_alike hr h
  exact ⟨v, hgiven, hv (v.standsForItself hl)⟩

end Engine

namespace Pattern

/-- On some budget the pattern reads the text as the value. -/
def ReadsAs (p : Pattern) (text : String) (v : Value) (r : Resolver) : Prop :=
  ∃ n, (Engine.ofBudget n).parse p text r = .ok v

/-- On some budget the row has the example for the pattern under the name. -/
def HasExample (p : Pattern) (name : String) (row : Row) (given : Pattern) (r : Resolver) : Prop :=
  ∃ n, (Engine.ofBudget n).rowExample name p row r = .ok (some given)

/-- Whatever a pattern reads from a text it does not reject, and the example that a row has for it
is an exact value that it does not reject. -/
theorem not_rejects_of_reading (p : Pattern) {r : Resolver} (hr : r.config.mockMode = false) :
    (∀ text v, p.ReadsAs text v r → ¬ p.Rejects v r) ∧
      ∀ name row given, p.HasExample name row given r →
        ∃ v, given = .exact v ∧ ¬ p.Rejects v r := by
  constructor
  · rintro text v ⟨n, hn⟩
    exact not_rejects_of_parse hr hn
  · rintro name row given ⟨n, hn⟩
    exact Engine.exists_exact_of_rowExample hr (.refl r) hn

/-- A severity is nothing, a word or a number in a string. -/
def severity : Pattern :=
  .union [.null, .enumeration ⟨[.string "low", .string "high"], false, none, none⟩,
    .inString number] none none

/-- A resolver that knows severities. -/
def severityResolver : Resolver :=
  .register .empty "Severity" severity

/-- A severity is read from its number, and a row has one as an example; neither is rejected. -/
theorem severity_not_rejected :
    (reference "(Severity)").ReadsAs "7" (.string "7") severityResolver ∧
      ¬ (reference "(Severity)").Rejects (.string "7") severityResolver ∧
      (reference "(Severity)").HasExample "level" (.ofCells [("level", "high")])
        (.exact (.string "high")) severityResolver ∧
      ¬ (reference "(Severity)").Rejects (.string "high") severityResolver := by
  have hreads : (reference "(Severity)").ReadsAs "7" (.string "7") severityResolver := ⟨4, rfl⟩
  have hexample : (reference "(Severity)").HasExample "level" (.ofCells [("level", "high")])
      (.exact (.string "high")) severityResolver := ⟨4, rfl⟩
  obtain ⟨hread, hgiven⟩ :=
    not_rejects_of_reading (reference "(Severity)") (r := severityResolver) rfl
  obtain ⟨v, hv, hn⟩ := hgiven _ _ _ hexample
  cases hv
  exact ⟨hreads, hread _ _ hreads, hexample, hn⟩

end Pattern

end DataContract
