import DataContract.Proofs.Closed.Verdicts
import DataContract.Proofs.Termination.Steps

/-!
# Computed budgets are enough without recursion

Matching, reading and comparing go two steps for each step into a pattern, since a structure is read
by matching it. So for patterns of some depth a budget of twice this depth is enough
(`Engine.ends_ofBudget`), and where no registered name leads back to itself that is less than what
the public functions compute from the weights of everything involved
(`Pattern.exists_isCompatibleWith`).
-/

namespace DataContract

namespace Engine

variable {e : Engine}

/-! ## Budgets -/

/-- The engine has ended on patterns of a depth that leaves two steps of the budget for each step
into them, and its answers are informed. -/
structure Ends (e : Engine) (n : Nat) (mine theirs : Resolver) : Prop where
  check {d : Nat} {p : Pattern} {v : Value} (hp : p.Grounded mine) (hd : p.Shallow mine d)
    (hn : 2 * d ≤ n) : Informed True (e.check p v mine)
  parse {d : Nat} {p : Pattern} {text : String} (hp : p.Grounded mine) (hd : p.Shallow mine d)
    (hn : 2 * d + 1 ≤ n) : (e.parse p text mine).Informed True
  encompasses {a b : Nat} {p q : Pattern} {stack : TypeStack} (hp : p.Grounded mine)
    (hq : q.Grounded theirs) (ha : p.Shallow mine a) (hb : q.Shallow theirs b)
    (hn : 2 * (a + b) ≤ n) : Informed True (e.encompasses p q mine theirs stack)

/-- The pattern is grounded, and matching and reading with it end on the budget. -/
def Within (r : Resolver) (n : Nat) (p : Pattern) : Prop :=
  p.Grounded r ∧ ∃ d, p.Shallow r d ∧ 2 * d + 1 ≤ n

/-- The patterns are grounded, and comparing them ends on the budget. -/
def BothWithin (mine theirs : Resolver) (n : Nat) (p q : Pattern) : Prop :=
  p.Grounded mine ∧ q.Grounded theirs ∧
    ∃ a b, p.Shallow mine a ∧ q.Shallow theirs b ∧ 2 * (a + b) ≤ n

variable {mine theirs : Resolver} {n : Nat}

/-- An engine that has ended within a budget informs what patterns within that budget ask of it. -/
theorem Ends.informs (h : e.Ends n mine theirs) :
    e.Informs True (Within mine n) (BothWithin mine theirs n) mine theirs where
  check hp := by
    obtain ⟨hp, d, hd, hn⟩ := hp
    exact h.check hp hd (by omega)
  parse hp := by
    obtain ⟨hp, d, hd, hn⟩ := hp
    exact h.parse hp hd hn
  encompasses hpq := by
    obtain ⟨hp, hq, a, b, ha, hb, hn⟩ := hpq
    exact h.encompasses hp hq ha hb hn
  leads hp hq := by
    obtain ⟨hp, d, hd, hn⟩ := hp
    cases d with
    | zero => exact hd.elim
    | succ d => exact ⟨hp.of_leads hq, d, hd _ hq, by omega⟩
  left hpq hp' := by
    obtain ⟨hp, hq, a, b, ha, hb, hn⟩ := hpq
    cases a with
    | zero => exact ha.elim
    | succ a => exact ⟨hp.of_leads hp', hq, a, b, ha _ hp', hb, by omega⟩
  right hpq hq' := by
    obtain ⟨hp, hq, a, b, ha, hb, hn⟩ := hpq
    cases b with
    | zero => exact hb.elim
    | succ b => exact ⟨hp, hq.of_leads hq', a, b, ha, hb _ hq', by omega⟩

/-- Any budget reads scalars. -/
theorem parse_scalar_ne_unfinished {r : Resolver} (n : Nat) (s : Scalar) (text : String) :
    (ofBudget (n + 1)).parse (.scalar s) text r ≠ .unfinished :=
  Outcome.ofExcept_ne_unfinished (s.parse text)

/-- The engine of every budget has ended on the patterns whose depth the budget pays for. -/
theorem ends_ofBudget (hmock : mine.config.mockMode = false) (n : Nat) :
    (ofBudget n).Ends n mine theirs := by
  induction n with
  | zero =>
    refine ⟨fun {d} {p} _ _ hd hn => ?_, fun _ _ hn => ?_, fun {a} {b} _ _ _ _ _ ha _ hn => ?_⟩
    · obtain rfl : d = 0 := by omega
      exact hd.elim
    · omega
    · obtain rfl : a = 0 := by omega
      exact ha.elim
  | succ n ih =>
    have hinforms := ih.informs
    have hwithin {d : Nat} {p q : Pattern} (hp : p.Grounded mine) (hd : p.Shallow mine d)
        (hn : 2 * d ≤ n + 1) (hq : mine.Leads p q) : Within mine n q := by
      cases d with
      | zero => exact hd.elim
      | succ d => exact ⟨hp.of_leads hq, d, hd q hq, by omega⟩
    refine ⟨fun {d} {p} {v} hp hd hn => ?_, fun {d} {p} {text} hp hd hn => ?_,
      fun {a} {b} {p} {q} {stack} hp hq ha hb hn => ?_⟩
    · rw [Pattern.check_succ hmock]
      exact hinforms.checkValue hp fun q hq => hwithin hp hd hn hq
    · refine ⟨fun _ => parseStep_ne_unfinished ?_ fun q hq text _ => ?_,
        isInherent_of_parse (n := n + 1) hp⟩
      · exact (ih.check hp hd (by omega)).ended trivial
      · exact (hinforms.parse (hwithin hp hd (by omega) hq.leads)).ended trivial
    · refine hinforms.encompassesStep hp hq (fun p' hp' => ?_)
        (fun p' hp' => ?_) fun q' hq' => ?_
      · cases a with
        | zero => exact ha.elim
        | succ a => exact ⟨hp.of_leads hp', a, ha p' hp', by
            cases b with
            | zero => exact hb.elim
            | succ b => omega⟩
      · cases a with
        | zero => exact ha.elim
        | succ a => exact ⟨hp.of_leads hp', hq, a, b, ha p' hp', hb, by omega⟩
      · cases b with
        | zero => exact hb.elim
        | succ b => exact ⟨hp, hq.of_leads hq', a, b, ha, hb q' hq', by omega⟩

/-- The computed budget is at least twice the size of what it is computed for. -/
theorem two_mul_le_budgetFor (size : Nat) : 2 * size ≤ budgetFor size := by
  have hsquare : 2 * size ≤ (size + 2) * (size + 2) := by
    have hle : 2 * (size + 2) ≤ (size + 2) * (size + 2) := Nat.mul_le_mul_right _ (by omega)
    omega
  calc
    2 * size ≤ (size + 2) * (size + 2) := hsquare
    _ = (size + 2) ^ 2 := (sq _).symm
    _ ≤ (size + 2) ^ 4 := Nat.pow_le_pow_right (by omega) (by omega)

/-- The computed budget is never very small. -/
theorem sixteen_le_budgetFor (size : Nat) : 16 ≤ budgetFor size :=
  calc
    16 = 2 ^ 4 := rfl
    _ ≤ (size + 2) ^ 4 := Nat.pow_le_pow_left (by omega) 4

end Engine

namespace Pattern

variable {p q : Pattern} {mine theirs : Resolver}

/-- The pattern is grounded, and every way from it has fewer steps than the number. -/
structure Bounded (r : Resolver) (depth : Nat) (p : Pattern) : Prop where
  grounded : p.Grounded r
  shallow : p.Shallow r depth

section
variable {r : Resolver} {v : Value} {d : Nat}

/-- A pattern that is neither a name nor an XML element is one step deeper than what is inside. -/
theorem Bounded.of_inner (hn : ∀ name, p ≠ .reference name) (hx : ∀ shape, p ≠ .xml shape)
    (h : ∀ q ∈ p.inner, q.Bounded r d) : p.Bounded r (d + 1) := by
  refine ⟨.intro ?_ fun q hq => ?_, ?_⟩
  · cases p with
    | reference name => exact absurd rfl (hn name)
    | xml shape => exact absurd rfl (hx shape)
    | _ => trivial
  · cases p with
    | reference name => exact absurd rfl (hn name)
    | _ => exact (h q hq).grounded
  · rintro q (hq | ⟨name, rfl, -⟩)
    · exact (h q hq).shallow
    · exact absurd rfl (hn name)

/-- A scalar leads nowhere, so one step is enough for it. -/
theorem bounded_scalar (c : Scalar) : (scalar c).Bounded r (d + 1) :=
  .of_inner nofun nofun nofun

/-- An exact value leads nowhere, so one step is enough for it. -/
theorem bounded_exact (w : Value) : (exact w).Bounded r (d + 1) :=
  .of_inner nofun nofun nofun

/-- Encoding a pattern in a string adds one step to it. -/
theorem Bounded.inString (hp : p.Bounded r d) : (inString p).Bounded r (d + 1) :=
  .of_inner nofun nofun fun _ hq => List.mem_singleton.1 hq ▸ hp

/-- A match with a pattern that is not deep ends on the computed budget. -/
theorem Bounded.exists_check (hp : p.Bounded r d) (hmock : r.config.mockMode = false)
    (hd : d ≤ 8) : ∃ m, p.check v r = some m := by
  have hends (n : Nat) : (Engine.ofBudget n).Ends n r r := Engine.ends_ofBudget hmock n
  refine ((hends _).check hp.grounded hp.shallow ?_).ended trivial
  have := Engine.sixteen_le_budgetFor (p.weight + v.weight + r.weight)
  omega

/-- What a pattern that is not deep accepts it accepts on the computed budget. -/
theorem Bounded.accepts_iff_check (hp : p.Bounded r d) (hmock : r.config.mockMode = false)
    (hd : d ≤ 8) : p.Accepts v r ↔ p.check v r = some .success := by
  constructor
  · intro ha
    obtain ⟨m, hm⟩ := hp.exists_check hmock hd
    exact ha.check_eq hm
  · exact accepts_of_check

/-- What a pattern that is not deep does not accept it rejects on the computed budget. -/
theorem Bounded.fails_check_iff (hp : p.Bounded r d) (hmock : r.config.mockMode = false)
    (hd : d ≤ 8) : Fails (p.check v r) ↔ ¬ p.Accepts v r := by
  rw [hp.accepts_iff_check hmock hd]
  obtain ⟨m, hm⟩ := hp.exists_check (v := v) hmock hd
  rw [hm]
  cases m <;> simp

/-- A pattern of some depth accepts exactly what has its shape with accepted parts. -/
theorem Bounded.accepts_iff_fits (hp : p.Bounded r d) (hmock : r.config.mockMode = false) :
    p.Accepts v r ↔ p.Fits r (fun p v => p.Accepts v r) (fun p t => p.Reads t r) v := by
  constructor
  · intro ha
    exact ha.fits hmock
  · intro hfits
    have hends : (Engine.ofBudget (2 * d)).Ends (2 * d) r r := Engine.ends_ofBudget hmock _
    obtain ⟨m, hm⟩ := (hends.check (v := v) hp.grounded hp.shallow le_rfl).ended trivial
    refine (accepts_or_rejects hm).resolve_right
      (not_rejects_of_fits hmock (hfits.imp ?_ ?_) hp.grounded.ne_xml)
    · exact fun p v ha => ha.not_rejects (Value.equal_self v) (.refl r)
    · exact fun p t hr => hr.not_refuses (.refl r)

/-- Outside mock mode a scalar accepts what passes its own check. -/
theorem accepts_scalar_iff {c : Scalar} (hmock : r.config.mockMode = false) :
    (scalar c).Accepts v r ↔ c.check v = .success :=
  (bounded_scalar (d := 0) c).accepts_iff_fits hmock

/-- Outside mock mode an exact value accepts what compares equal to it. -/
theorem accepts_exact_iff {w : Value} (hmock : r.config.mockMode = false) :
    (exact w).Accepts v r ↔ w.equal v = true :=
  (bounded_exact (d := 0) w).accepts_iff_fits hmock

end

/-! ## Patterns without names and XML elements -/

section
variable {r : Resolver} {v : Value} {n : Nat}

/-- The pattern is neither a name nor an XML element. -/
def Local : Pattern → Prop
  | .reference _ => False
  | .xml _ => False
  | _ => True

/-- What is inside a pattern weighs less. -/
theorem exists_succ_of_weight_le (hn : p.weight ≤ n) :
    ∃ m, n = m + 1 ∧ ∀ q ∈ p.inner, q.weight ≤ m := by
  have hpos := p.weight_pos
  refine ⟨n - 1, by omega, fun q hq => ?_⟩
  have := weight_lt_of_inner hq
  omega

/-- Without names and XML elements no way into a pattern is longer than its weight. -/
theorem bounded_of_local (h : p.Throughout Local) (hn : p.weight ≤ n) : p.Bounded r n := by
  induction h generalizing n with
  | intro here _ ih =>
    obtain ⟨n, rfl, hinner⟩ := exists_succ_of_weight_le hn
    refine .of_inner ?_ ?_ fun q hq => ih q hq (hinner q hq)
    · rintro name rfl
      exact here
    · rintro shape rfl
      exact here

/-- Without names and XML elements a match ends on the computed budget. -/
theorem exists_check_of_local (h : p.Throughout Local) (hmock : r.config.mockMode = false) :
    ∃ m, p.check v r = some m := by
  have hbounded : p.Bounded r p.weight := bounded_of_local h le_rfl
  have hends (n : Nat) : (Engine.ofBudget n).Ends n r r := Engine.ends_ofBudget hmock n
  refine ((hends _).check hbounded.grounded hbounded.shallow ?_).ended trivial
  calc
    2 * p.weight ≤ 2 * (p.weight + v.weight + r.weight) := by omega
    _ ≤ _ := Engine.two_mul_le_budgetFor _

/-- An array without a repetition accepts arrays of as many accepted items. -/
theorem accepts_array_iff {elements : List Pattern} (hmock : r.config.mockMode = false)
    (hlocal : (array elements).Throughout Local) (h : ∀ p ∈ elements, p.isRest = false) :
    (array elements).Accepts v r ↔ ∃ items, v = .array items ∧
      List.Forall₂ (fun p v => p.Accepts v r) elements items := by
  have hbounded : (array elements).Bounded r (array elements).weight :=
    bounded_of_local hlocal le_rfl
  rw [hbounded.accepts_iff_fits hmock]
  show (∃ items, v = .array items ∧ FitsArray elements items _) ↔ _
  simp only [fitsArray_iff_forall₂ h]

end

/-! ## Without recursion -/

/-- Without recursion a comparison of grounded patterns ends. -/
theorem exists_isCompatibleWith (hr : mine.NonRecursive) (hs : theirs.NonRecursive)
    (hmock : mine.config.mockMode = false) (hp : p.Grounded mine) (hq : q.Grounded theirs) :
    ∃ m, p.isCompatibleWith q mine theirs = some m := by
  refine ((Engine.ends_ofBudget hmock _).encompasses hp hq (hr.shallow p)
    (hs.shallow q) ?_).ended trivial
  calc
    2 * (p.weight + mine.weight + (q.weight + theirs.weight)) =
        2 * (p.weight + q.weight + mine.weight + theirs.weight) := by omega
    _ ≤ _ := Engine.two_mul_le_budgetFor _

end Pattern

end DataContract
