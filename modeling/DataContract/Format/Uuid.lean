import DataContract.Choices
import DataContract.Text.Split

/-!
# Universally unique identifiers

Thirty-two hexadecimal digits of either case: in groups of 8, 4, 4, 4 and 12 with hyphens between
them, plain, in braces, or behind `urn:uuid:`. The last two have hyphens.
-/

namespace DataContract

namespace Uuid

/-- The lengths of the groups. -/
def groups : List Nat := [8, 4, 4, 4, 12]

/-- A hexadecimal digit of either case. -/
def isHex (c : Char) : Bool :=
  (Text.hexDigit? c).isSome

/-- The five groups with hyphens between them. -/
def isHyphenated (cs : List Char) : Bool :=
  let parts := Text.splitAll '-' cs
  parts.map List.length == groups && parts.all (·.all isHex)

/-- The text is an identifier. -/
def accepts (cs : List Char) : Bool :=
  isHyphenated cs || (cs.length == 32 && cs.all isHex) ||
    (cs.head? == some '\x7b' && cs.getLast? == some '\x7d' &&
      isHyphenated ((cs.drop 1).dropLast)) ||
    ((cs.take 9).map Char.toLower == "urn:uuid:".toList && isHyphenated (cs.drop 9))

/-- The digits that identifiers are written with. -/
def digits : List Char := "0123456789abcdef".toList

/-- Any random identifier: version 4, variant 8 to b. -/
def generate (c : Choices) : List Char :=
  let hex (i n : Nat) : List Char := (c.part i).chars digits n
  hex 0 8 ++ '-' :: hex 1 4 ++ '-' :: '4' :: hex 2 3 ++
    '-' :: (c.part 3).chars ['8', '9', 'a', 'b'] 1 ++ hex 4 3 ++ '-' :: hex 5 12

end Uuid

end DataContract
