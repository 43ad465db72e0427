import DataContract.Error
import DataContract.Fields
import DataContract.LazyList

/-!
# Combinations

A bounded selection from the product of the candidates of several keys. First comes the diagonal:
the `i`-th combination takes candidate `i` of every key, starting over in lists that are shorter, so
that every candidate of every key appears early. Then follows the whole product, the first key
outermost, without what the diagonal had. A cap ends both. Keys without candidates are left out.

The product is walked by an odometer: a position in every list of candidates, of which the last one
moves fastest. Selecting is stepping a `Combinations` on: a step emits a tuple of the diagonal,
emits the tuple at the odometer, or passes over it because the diagonal had it.
-/

namespace DataContract

/-- Keys with at least one candidate each, and a cap on what is selected. -/
structure CombinationSpec (α : Type) where
  keys : List String
  candidates : List (List α)
  maxCombinations : Nat

namespace CombinationSpec

variable {α : Type}

/-- The selection from these candidates; an error if the cap is zero. -/
def ofCandidates (keyed : List (String × List α)) (maxCombinations : Nat) :
    Except ContractError (CombinationSpec α) :=
  if maxCombinations = 0 then .error (.invalidMaxCombinations maxCombinations)
  else
    let live := keyed.filter fun a => !a.2.isEmpty
    .ok ⟨live.map (·.1), live.map (·.2), maxCombinations⟩

/-- The length of the longest list of candidates. -/
def longest (spec : CombinationSpec α) : Nat :=
  (spec.candidates.map List.length).foldl max 0

/-- The number of tuples of the product. -/
def total (spec : CombinationSpec α) : Nat :=
  (spec.candidates.map List.length).foldr (· * ·) 1

/-- Candidate `i` of every key, starting over in shorter lists. -/
def diagonalTuple (candidates : List (List α)) (i : Nat) : List α :=
  candidates.filterMap fun list => list[i % list.length]?

/-- The diagonal. -/
def diagonal [BEq α] (spec : CombinationSpec α) : List (List α) :=
  if spec.keys.isEmpty then [[]]
  else ((List.range spec.longest).map (diagonalTuple spec.candidates)).eraseDups

/-- The candidates of a selection under their keys. -/
def assign (spec : CombinationSpec α) (tuple : List α) : List (String × α) :=
  Fields.ofPairs (spec.keys.zip tuple)

/-- The diagonal, under the keys and without the cap. -/
def prioritized [BEq α] (spec : CombinationSpec α) : List (List (String × α)) :=
  spec.diagonal.map spec.assign

end CombinationSpec

/-- How far a selection has come. -/
structure Combinations (α : Type) where
  spec : CombinationSpec α
  /-- The diagonal. -/
  prioritized : List (List α)
  /-- The number of tuples of the diagonal that have been emitted. -/
  nextPrioritized : Nat
  /-- The positions of the next tuple of the product; none behind the last tuple. -/
  odometer : Option (List Nat)
  /-- The number of all tuples that have been emitted. -/
  emitted : Nat

namespace Combinations

variable {α : Type}

/-- The positions after the given ones: the last one moves, and a list that comes to its end starts
over and moves the one before it. -/
def advance : List (List α) → List Nat → Option (List Nat)
  | list :: candidates, i :: positions =>
    match advance candidates positions with
    | some next => some (i :: next)
    | none => if i + 1 < list.length then some ((i + 1) :: positions.map fun _ => 0) else none
  | _, _ => none

/-- The candidates at the positions. -/
def tupleAt (candidates : List (List α)) (positions : List Nat) : List α :=
  (positions.zip candidates).filterMap fun (i, list) => list[i]?

/-- What has not emitted anything yet. -/
def start [BEq α] (spec : CombinationSpec α) : Combinations α where
  spec
  prioritized := spec.diagonal
  nextPrioritized := 0
  odometer := if spec.keys.isEmpty then none else some (spec.keys.map fun _ => 0)
  emitted := 0

/-- One step further, with the tuple that the step emits unless it passes over one; nothing at the
end. -/
def step [BEq α] (c : Combinations α) : Option (Option (List α) × Combinations α) :=
  if c.spec.maxCombinations ≤ c.emitted then none
  else
    match c.prioritized[c.nextPrioritized]? with
    | some tuple =>
      some (some tuple,
        { c with nextPrioritized := c.nextPrioritized + 1, emitted := c.emitted + 1 })
    | none =>
      match c.odometer with
      | none => none
      | some positions =>
        let tuple := tupleAt c.spec.candidates positions
        let odometer := advance c.spec.candidates positions
        if c.prioritized.contains tuple then some (none, { c with odometer })
        else some (some tuple, { c with odometer, emitted := c.emitted + 1 })

/-- The tuples that are emitted within a number of steps. -/
def run [BEq α] : Nat → Combinations α → LazyList (List α)
  | 0, _ => .stalled
  | n + 1, c =>
    match c.step with
    | none => .nil
    | some (none, c) => run n c
    | some (some tuple, c) => .cons tuple fun _ => run n c

end Combinations

namespace CombinationSpec

variable {α : Type}

/-- The selection. There are as many steps as tuples of the diagonal and of the product, and one to
see the end. -/
def combinations [BEq α] (spec : CombinationSpec α) : LazyList (List (String × α)) :=
  let start := Combinations.start spec
  (start.run (start.prioritized.length + spec.total + 1)).map spec.assign

end CombinationSpec

end DataContract
