import DataContract.LazyList
import DataContract.Resolver
import DataContract.Row

/-!
# Negative policies

Negative variants of an object corrupt one key at a time: its pattern is replaced by each of its
negatives, and the key loses its optional mark, so that the corrupted value is always there. The
policies differ only in which negatives they keep, which depends on what the declared pattern and
the negative travel as.
-/

namespace DataContract

namespace Family

/-- What a negative travels as; structures are never substitutes of the same type. -/
def ofNegative : Pattern → Family
  | .scalar s => s.family
  | .exact v => ofValue v
  | .inString _ => .string
  | .csv _ => .string
  | _ => .structured

/-- What a declared pattern travels as, seen through nullable unions, lookups and references, for
at most the given number of them. -/
def ofDeclared (r : Resolver) : Nat → Pattern → Option Family
  | 0, _ => none
  | steps + 1, p =>
    match p with
    | .scalar s => some s.family
    | .exact v => some (ofValue v)
    | .enumeration shape => some shape.family
    | .inString _ => some .string
    | .csv _ => some .string
    | .union members _ _ =>
      match Pattern.nonNull members with
      | [only] => ofDeclared r steps only
      | _ => some .structured
    | .reference name =>
      match r.resolve name with
      | .ok p => ofDeclared r steps p
      | .error _ => some .structured
    | .lookup _ type => ofDeclared r steps type
    | _ => some .structured

end Family

namespace NegativePolicy

/-- The policy keeps a negative of a key that travels as `declared`. -/
def keeps (policy : NegativePolicy) (declared : Family) (negative : Pattern) : Bool :=
  let sameType := match Family.ofNegative negative with
    | .structured => false
    | family => family == declared
  match policy with
  | .all => true
  | .strict => true
  | .stringly => declared != .string && !negative.isNull && !sameType
  | .nonStringly => !negative.isNull && !sameType

/-- The keys with one of them corrupted. -/
def corrupt (keys : List (String × Pattern)) (key : String) (negative : Pattern) :
    List (String × Pattern) :=
  Fields.set (Fields.remove keys key) (Key.base key) negative

/-- The keys with one of them corrupted in each way that the policy keeps, key by key; `source`
gives the negatives of a pattern. -/
def corruptions (policy : NegativePolicy)
    (source : Pattern → Row → Resolver → LazyList Pattern) (keys : List (String × Pattern))
    (row : Row) (r : Resolver) : LazyList (List (String × Pattern)) :=
  (LazyList.ofList keys).flatMap fun (key, p) =>
    match Family.ofDeclared r (p.weight + r.weight) p with
    | none => .stalled
    | some family =>
      ((source p (row.stepDown (Key.base key)) r).filter (policy.keeps family)).map
        (corrupt keys key)

end NegativePolicy

end DataContract
