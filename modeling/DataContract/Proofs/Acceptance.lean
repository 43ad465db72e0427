import DataContract.Proofs.Agreement.Budget
import DataContract.Proofs.Layer

/-!
# Acceptance

A pattern accepts a value if a match on some budget ends in a success, and rejects it if one ends in
a failure. It never does both, not even for two writings of one value
(`Pattern.Accepts.not_rejects`), so what the public functions answer on the budget that they compute
is what every larger budget answers. Outside mock mode both are read off one layer of the pattern
(`Pattern.Accepts.fits`, `Pattern.not_rejects_of_fits`).
-/

namespace DataContract

/-- The value is no text that mock mode takes for the pattern that it denotes. -/
def Value.StandsForItself (v : Value) (r : Resolver) : Prop :=
  Engine.mockPattern? v r = none

/-- Outside mock mode every value stands for itself. -/
theorem Value.standsForItself {r : Resolver} (hr : r.config.mockMode = false) (v : Value) :
    v.StandsForItself r := by
  unfold StandsForItself Engine.mockPattern?
  split
  · rw [hr]
    rfl
  · rfl

/-- Whether a value stands for itself depends on the mode alone. -/
theorem Value.StandsForItself.of_alike {v : Value} {r s : Resolver} (h : v.StandsForItself r)
    (hr : s.Alike r) : v.StandsForItself s := by
  unfold StandsForItself Engine.mockPattern? at h ⊢
  rwa [hr.mockMode]

namespace Pattern

/-- Some match of the value against the pattern ends in a success. -/
def Accepts (p : Pattern) (v : Value) (r : Resolver) : Prop :=
  ∃ n, Succeeds ((Engine.ofBudget n).check p v r)

/-- Some match of the value against the pattern ends in a failure. -/
def Rejects (p : Pattern) (v : Value) (r : Resolver) : Prop :=
  ∃ n, Fails ((Engine.ofBudget n).check p v r)

/-- On some budget the pattern reads the text as a value. -/
def Reads (p : Pattern) (text : String) (r : Resolver) : Prop :=
  ∃ n, (Engine.ofBudget n).Reads r p text

/-- On some budget the pattern gives an error for the text. -/
def Refuses (p : Pattern) (text : String) (r : Resolver) : Prop :=
  ∃ n, (Engine.ofBudget n).Refuses r p text

/-- Some comparison ends in the result that the first pattern contains the second one. -/
def Contains (bigger smaller : Pattern) (mine theirs : Resolver) : Prop :=
  ∃ n, Succeeds ((Engine.ofBudget n).encompasses bigger smaller mine theirs [])

variable {p q : Pattern} {v w : Value} {text : String} {r s : Resolver}

/-! ## Finished computations -/

/-- A match that succeeds within the computed budget is an acceptance. -/
theorem accepts_of_check (h : p.check v r = some .success) : p.Accepts v r :=
  ⟨_, h⟩

/-- A comparison that succeeds within the computed budget is a containment. -/
theorem contains_of_isCompatibleWith {mine theirs : Resolver}
    (h : p.isCompatibleWith q mine theirs = some .success) : p.Contains q mine theirs :=
  ⟨_, h⟩

/-- A finished match says that the pattern accepts the value or that it rejects it. -/
theorem accepts_or_rejects {n : Nat} {m : MatchResult}
    (h : (Engine.ofBudget n).check p v r = some m) : p.Accepts v r ∨ p.Rejects v r :=
  (succeeds_or_fails h).imp (⟨n, ·⟩) (⟨n, ·⟩)

/-- A match that ends on the computed budget ends there in a success if any match does. -/
theorem Accepts.check_eq {m : MatchResult} (h : p.Accepts v r) (hm : p.check v r = some m) :
    p.check v r = some .success := by
  obtain ⟨n, hn⟩ := h
  rcases succeeds_or_fails hm with hs | hf
  · exact hs
  · exact absurd hf (Engine.same_verdict (Value.equal_self v) (.refl r) hn)

/-- A value that is accepted is not rejected, however it is written and whatever else than the
registry and the mock mode the resolvers differ in. -/
theorem Accepts.not_rejects (h : p.Accepts v r) (hv : v.equal w = true) (hr : r.Alike s) :
    ¬ p.Rejects w s := by
  obtain ⟨n, hn⟩ := h
  rintro ⟨m, hm⟩
  exact Engine.same_verdict hv hr hn hm

/-- Rejection does not depend on how numbers are written, nor on more of the resolver than matching
looks at. -/
theorem Rejects.congr (h : p.Rejects v r) (hv : v.equal w = true) (hr : r.Alike s) :
    p.Rejects w s := by
  obtain ⟨n, hn⟩ := h
  exact ⟨n, ((Engine.ofBudget_below (Nat.le_refl n)).check hv hr).fails hn⟩

/-- No text is both read and refused. -/
theorem Reads.not_refuses (h : p.Reads text r) (hr : r.Alike s) : ¬ p.Refuses text s := by
  obtain ⟨n, v, hn⟩ := h
  rintro ⟨m, err, hm⟩
  exact Engine.same_reading hr hn hm

/-! ## One layer -/

/-- A match of a value that stands for itself is a match of the value. -/
theorem check_eq_checkValue (hv : v.StandsForItself r) (n : Nat) (p : Pattern) :
    (Engine.ofBudget (n + 1)).check p v r = (Engine.ofBudget n).checkValue p v r := by
  show (Engine.ofBudget n).checkStep p v r = _
  rw [Engine.checkStep, hv]

/-- Outside mock mode a match is a match of the value itself. -/
theorem check_succ (hr : r.config.mockMode = false) (n : Nat) (p : Pattern) (v : Value) :
    (Engine.ofBudget (n + 1)).check p v r = (Engine.ofBudget n).checkValue p v r :=
  check_eq_checkValue (v.standsForItself hr) n p

/-- An accepted value has the shape of the pattern, with accepted parts. -/
theorem Accepts.fits (hr : r.config.mockMode = false) (h : p.Accepts v r) :
    p.Fits r (fun p v => p.Accepts v r) (fun p t => p.Reads t r) v := by
  obtain ⟨n, hn⟩ := h
  cases n with
  | zero => exact absurd hn not_succeeds_none
  | succ n =>
    rw [check_succ hr] at hn
    exact (Engine.fits_of_succeeds hn).imp (fun _ _ h => ⟨n, h⟩) fun _ _ h => ⟨n, h⟩

/-- A value that stands for itself and has the shape of the pattern and no rejected part is not
rejected. -/
theorem not_rejects_of_standsForItself (hv : v.StandsForItself r)
    (h : p.Fits r (fun p v => ¬ p.Rejects v r) (fun p t => ¬ p.Refuses t r) v)
    (hx : ∀ shape, p ≠ .xml shape := by simp) : ¬ p.Rejects v r := by
  rintro ⟨n, hn⟩
  cases n with
  | zero => exact not_fails_none hn
  | succ n =>
    rw [check_eq_checkValue hv] at hn
    refine Engine.not_fails_of_fits hx (h.imp ?_ ?_) hn
    · exact fun p v hp hf => hp ⟨n, hf⟩
    · exact fun p t hp hf => hp ⟨n, hf⟩

/-- A value that has the shape of the pattern and no rejected part is not rejected. -/
theorem not_rejects_of_fits (hr : r.config.mockMode = false)
    (h : p.Fits r (fun p v => ¬ p.Rejects v r) (fun p t => ¬ p.Refuses t r) v)
    (hx : ∀ shape, p ≠ .xml shape := by simp) : ¬ p.Rejects v r :=
  not_rejects_of_standsForItself (v.standsForItself hr) h hx

/-! ## References -/

/-- A name accepts what the pattern it stands for accepts. -/
theorem accepts_reference_iff {name : String} (hr : r.config.mockMode = false)
    (hp : r.resolve name = .ok p) : (reference name).Accepts v r ↔ p.Accepts v r := by
  constructor
  · intro ha
    have hfits : FitsReference r name v fun p v => p.Accepts v r := ha.fits hr
    rwa [FitsReference, hp] at hfits
  · rintro ⟨n, hn⟩
    refine ⟨n + 1, ?_⟩
    rw [check_succ hr]
    simpa only [Engine.checkValue, Engine.checkReference, hp] using hn

/-- A name rejects only what the pattern it stands for rejects. -/
theorem not_rejects_reference {name : String} (hr : r.config.mockMode = false)
    (hp : r.resolve name = .ok p) (h : ¬ p.Rejects v r) : ¬ (reference name).Rejects v r := by
  refine not_rejects_of_fits hr ?_
  rwa [Fits, FitsReference, hp]

/-! ## Scalars -/

variable {c : Scalar}

/-- What a scalar pattern reads its scalar reads. -/
theorem reads_scalar (h : Reads (.scalar c) text r) : ∃ v, c.parse text = .ok v := by
  obtain ⟨n, v, hn⟩ := h
  cases n with
  | zero => cases hn
  | succ n =>
    have hn : Outcome.ofExcept (c.parse text) = .ok v := hn
    cases hc : c.parse text with
    | ok w => exact ⟨w, rfl⟩
    | error err => rw [hc] at hn; cases hn

/-- A text that the scalar reads is not refused by its pattern. -/
theorem not_refuses_scalar (h : c.parse text = .ok v) : ¬ Refuses (.scalar c) text r := by
  rintro ⟨n, err, hn⟩
  cases n with
  | zero => cases hn
  | succ n =>
    have hn : Outcome.ofExcept (c.parse text) = .error err := hn
    rw [h] at hn
    cases hn

/-- Outside of mock mode a scalar pattern rejects exactly what its scalar does not accept. -/
theorem not_rejects_scalar (hr : r.config.mockMode = false) :
    ¬ Rejects (.scalar c) v r ↔ c.check v = .success := by
  constructor
  · intro h
    by_contra hc
    refine h ⟨1, ?_⟩
    rw [check_succ hr]
    cases hm : c.check v with
    | success => exact absurd hm hc
    | failure f => exact ⟨f, by rw [Engine.checkValue, hm]⟩
  · exact fun h => not_rejects_of_fits hr h

end Pattern

end DataContract
