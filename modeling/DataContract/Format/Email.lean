import DataContract.Choices
import DataContract.Text.Blank
import DataContract.Text.Split

/-!
# Mail addresses

A local part and a domain around the only `@`, with no blank characters anywhere. The domain has a
point with something on both sides, and does not end in one.
-/

namespace DataContract

namespace Email

/-- The part of an address behind the `@`. -/
def isDomain (cs : List Char) : Bool :=
  match Text.splitOnce (· = '.') cs with
  | none => false
  | some (host, top) => !host.isEmpty && !top.isEmpty && top.getLast? != some '.'

/-- The text is a mail address. -/
def accepts (cs : List Char) : Bool :=
  match Text.splitOnce (· = '@') cs with
  | none => false
  | some (name, domain) =>
    !name.isEmpty && !domain.contains '@' && !cs.any Text.isBlank && isDomain domain

/-- Any eight small letters and digits at a fixed domain. -/
def generate (c : Choices) : List Char :=
  (c.chars Choices.letters 8).map Char.toLower ++ "@example.com".toList

end Email

end DataContract
