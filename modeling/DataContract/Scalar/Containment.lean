import DataContract.MatchResult
import DataContract.Scalar.Basic

/-!
# Containment of scalars

When every value of one scalar pattern is a value of another: ranges by their bounds, every string
format in an unbounded string, and every other scalar only in its own kind.
-/

namespace DataContract

namespace NumberRange

/-- Every number of the second range is in the first. -/
def encompasses (a b : NumberRange) : MatchResult :=
  let below := match a.minimum with
    | none => none
    | some lo =>
      if (b.minimum.map (lo.le ·)).getD false then none
      else some (MatchResult.fail
        s!"Expected minimum {lo.text}, but the other side allows smaller numbers")
  let above := match a.maximum with
    | none => none
    | some hi =>
      if (b.maximum.map (·.le hi)).getD false then none
      else some (MatchResult.fail
        s!"Expected maximum {hi.text}, but the other side allows larger numbers")
  if a.integer && !b.integer then
    .fail "Expected integer, but the other side allows decimals"
  else (below.orElse fun _ => above).getD .success

end NumberRange

namespace LengthRange

/-- Every string of the second range is in the first. -/
def encompasses (a b : LengthRange) : MatchResult :=
  let lo := a.minLength.getD 0
  if b.minLength.getD 0 < lo then
    .fail s!"Expected minLength {lo}, but the other side allows shorter strings"
  else match a.maxLength with
    | none => .success
    | some hi =>
      if (b.maxLength.map fun other => decide (other ≤ hi)).getD false then .success
      else .fail s!"Expected maxLength {hi}, but the other side allows longer strings"

end LengthRange

namespace Scalar

/-- Every value of the second scalar is one of the first. -/
def encompasses (a b : Scalar) : MatchResult :=
  let byKind : MatchResult :=
    if a.sameKind b then .success
    else .fail s!"Expected {a.typeName}, got {b.typeName}"
  match a, b with
  | .number r, .number q => r.encompasses q
  | .string r, .string q => r.encompasses q
  | .string r, b =>
    let fits := match b with
      | .emptyString => r.minLength.getD 0 == 0
      | _ => false
    if fits || (b.family = .string && r.isUnbounded) then .success else byKind
  | .binary, b => if b.family = .string then .success else byKind
  | _, _ => byKind

end Scalar

end DataContract
