import DataContract.Choices

/-!
# Base 64

Groups of four characters that stand for three bytes. The last group may stand for one or two
bytes: it is padded with `=`, and the bits it does not use are zero.
-/

namespace DataContract

-- Powers are those of the core library, whatever algebra is in scope where they are read.
attribute [local instance (high)] instPowNat

namespace Base64

/-- The characters in the order of the numbers they stand for. -/
def alphabet : List Char :=
  "ABCDEFGHIJKLMNOPQRSTUVWXYZabcdefghijklmnopqrstuvwxyz0123456789+/".toList

/-- The number of six bits that a character stands for. -/
def sextet? (c : Char) : Option Nat :=
  alphabet.idxOf? c

/-- The character stands for a number whose last `bits` bits are zero. -/
def endsIn (bits : Nat) (c : Char) : Bool :=
  match sextet? c with
  | some n => n % 2 ^ bits == 0
  | none => false

/-- The text encodes some bytes. -/
def accepts : List Char → Bool
  | [] => true
  | [a, b, '=', '='] => endsIn 0 a && endsIn 4 b
  | [a, b, c, '='] => endsIn 0 a && endsIn 0 b && endsIn 2 c
  | a :: b :: c :: d :: rest =>
    endsIn 0 a && endsIn 0 b && endsIn 0 c && endsIn 0 d && accepts rest
  | _ => false

/-- The encoding of any nine bytes. -/
def generate (c : Choices) : List Char :=
  c.chars alphabet 12

end Base64

end DataContract
