import DataContract.Containment
import DataContract.Reading

/-!
# The engine on a budget

One step of the engine answers a question by asking the engine before it about the parts.
`Engine.ofBudget n` takes `n` steps. Questions about patterns and values are put to an engine whose
budget is computed from the sizes of everything involved. It is generous: as long as no step can
follow a different way twice from the same place, the way to any answer is shorter.
-/

namespace DataContract

namespace Engine

/-- One more step. -/
def step (e : Engine) : Engine :=
  ⟨e.checkStep, e.parseStep, e.encompassesStep⟩

/-- The engine after a number of steps. -/
def ofBudget : Nat → Engine
  | 0 => exhausted
  | n + 1 =>
    ⟨fun p v r => (ofBudget n).checkStep p v r,
      fun p text r => (ofBudget n).parseStep p text r,
      fun p other mine theirs stack => (ofBudget n).encompassesStep p other mine theirs stack⟩

/-- Without budget the engine has no answers. -/
theorem ofBudget_zero : ofBudget 0 = exhausted := rfl

/-- One unit of budget more is one more step. -/
theorem ofBudget_succ (n : Nat) : ofBudget (n + 1) = (ofBudget n).step := rfl

/-- The budget for questions about things of a total size. -/
def budgetFor (size : Nat) : Nat :=
  Nat.pow (size + 2) 4

end Engine

namespace Pattern

/-- The pattern accepts the value. -/
def check (p : Pattern) (v : Value) (r : Resolver) : Option MatchResult :=
  (Engine.ofBudget (Engine.budgetFor (p.weight + v.weight + r.weight))).check p v r

/-- The value of the pattern that a text is. -/
def parse (p : Pattern) (text : String) (r : Resolver) : Outcome Value :=
  (Engine.ofBudget (Engine.budgetFor (p.weight + text.length + r.weight))).parse p text r

/-- The first pattern contains the second, while the comparisons on the stack go on. -/
def encompasses (p other : Pattern) (mine theirs : Resolver) (stack : TypeStack) :
    Option MatchResult :=
  (Engine.ofBudget (Engine.budgetFor
    (p.weight + other.weight + mine.weight + theirs.weight + stack.length))).encompasses
      p other mine theirs stack

/-- The newer pattern accepts everything that the older one accepts. -/
def isCompatibleWith (newer older : Pattern) (mine theirs : Resolver) : Option MatchResult :=
  newer.encompasses older mine theirs []

end Pattern

end DataContract
