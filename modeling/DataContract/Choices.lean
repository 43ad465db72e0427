/-!
# Choices

Generation makes choices: which member of a union, how many elements, which letters. A `Choices` is
the outcome of all of them at once, a number at every place of a tree. A choice of `k` things reads
the number at the root modulo `k`, and the parts of a structure are generated from different
branches, so that no part's choices depend on another's. What holds for every `Choices` holds for
every outcome of the choices.
-/

namespace DataContract

/-- The outcomes of all choices, each under the path to its place. -/
structure Choices where
  outcome : List Nat → Nat

namespace Choices

instance : Inhabited Choices := ⟨⟨fun _ => 0⟩⟩

/-- One of the numbers below `k`; zero if there is none. -/
def below (c : Choices) (k : Nat) : Nat :=
  if k = 0 then 0 else c.outcome [] % k

/-- One of the numbers from `lo` to `hi`. -/
def between (c : Choices) (lo hi : Nat) : Nat :=
  lo + c.below (hi + 1 - lo)

/-- One of the integers from `lo` to `hi`. -/
def intBetween (c : Choices) (lo hi : Int) : Int :=
  lo + (c.below (hi + 1 - lo).toNat : Nat)

/-- One of two. -/
def coin (c : Choices) : Bool :=
  c.below 2 == 1

/-- The choices of the `i`-th part. -/
def part (c : Choices) (i : Nat) : Choices :=
  ⟨fun path => c.outcome (i :: path)⟩

/-- A number drawn below a bound is below it. -/
theorem below_lt (c : Choices) {k : Nat} (h : 0 < k) : c.below k < k := by
  unfold below
  split
  · omega
  · exact Nat.mod_lt _ h

/-- A choice between bounds keeps them. -/
theorem between_bounds (c : Choices) {lo hi : Nat} (h : lo ≤ hi) :
    lo ≤ c.between lo hi ∧ c.between lo hi ≤ hi := by
  have := c.below_lt (k := hi + 1 - lo) (by omega)
  unfold between
  omega

/-- A choice between bounds keeps them. -/
theorem intBetween_bounds (c : Choices) {lo hi : Int} (h : lo ≤ hi) :
    lo ≤ c.intBetween lo hi ∧ c.intBetween lo hi ≤ hi := by
  have := c.below_lt (k := (hi + 1 - lo).toNat) (by omega)
  unfold intBetween
  omega

/-- The letters and digits of random texts. -/
def letters : List Char :=
  "ABCDEFGHIJKLMNOPQRSTUVWXYZabcdefghijklmnopqrstuvwxyz0123456789".toList

/-- A text of `n` characters, each one of `alphabet`. -/
def chars (c : Choices) (alphabet : List Char) (n : Nat) : List Char :=
  (List.range n).map fun i => alphabet.getD ((c.part i).below alphabet.length) 'x'

/-- A text of `n` letters and digits. -/
def word (c : Choices) (n : Nat) : String :=
  String.ofList (c.chars letters n)

/-- Choices from a number, mixed with the path to each place. -/
def ofSeed (seed : UInt64) : Choices :=
  let mix (h : UInt64) : UInt64 :=
    let h := (h ^^^ (h >>> 30)) * 0xBF58476D1CE4E5B9
    let h := (h ^^^ (h >>> 27)) * 0x94D049BB133111EB
    h ^^^ (h >>> 31)
  ⟨fun path =>
    (path.foldl (fun h i => mix (h * 31 + i.toUInt64 + 0x9E3779B97F4A7C15)) (mix seed)).toNat⟩

end Choices

end DataContract
