import DataContract.Choices
import DataContract.Decimal.Basic
import DataContract.Text.Split

/-!
# Calendar dates

Dates of the proleptic Gregorian calendar, written as a four-digit year, a month and a day with
hyphens between them. The year may carry a sign.
-/

namespace DataContract

namespace CalendarDate

/-- The year has a 29th of February. -/
def isLeapYear (year : Int) : Bool :=
  year % 4 == 0 && (year % 100 != 0 || year % 400 == 0)

/-- The number of days of a month. -/
def daysInMonth (year : Int) (month : Nat) : Nat :=
  if month = 2 then if isLeapYear year then 29 else 28
  else if month = 4 || month = 6 || month = 9 || month = 11 then 30
  else 31

/-- The month and the day exist in the year. -/
def exists? (year : Int) (month day : Nat) : Bool :=
  1 ≤ month && month ≤ 12 && 1 ≤ day && day ≤ daysInMonth year month

/-- A number of exactly `n` digits at the front of a text, and what follows. -/
def fixedDigits? (n : Nat) (cs : List Char) : Option (Nat × List Char) :=
  if cs.length < n then none
  else (Text.digits? (cs.take n)).map (·, cs.drop n)

/-- A date without a sign at the front of a text, and what follows. -/
def read? (cs : List Char) : Option ((Nat × Nat × Nat) × List Char) := do
  let (year, cs) ← fixedDigits? 4 cs
  let cs ← Text.stripStart? ['-'] cs
  let (month, cs) ← fixedDigits? 2 cs
  let cs ← Text.stripStart? ['-'] cs
  let (day, cs) ← fixedDigits? 2 cs
  return ((year, month, day), cs)

/-- The text is a date. -/
def accepts (cs : List Char) : Bool :=
  let signed (sign : Int) (cs : List Char) : Bool :=
    match read? cs with
    | some ((year, month, day), []) => exists? (sign * year) month day
    | _ => false
  match cs with
  | '-' :: rest => signed (-1) rest
  | '+' :: rest => signed 1 rest
  | cs => signed 1 cs

/-- The written form of a date. -/
def chars (year month day : Nat) : List Char :=
  Decimal.padDigits 4 year ++ '-' :: Decimal.padDigits 2 month ++ '-' :: Decimal.padDigits 2 day

/-- Any date of the twenty-first century. -/
def generate (c : Choices) : List Char :=
  let year := (c.part 0).between 2000 2099
  let month := (c.part 1).between 1 12
  let day := (c.part 2).between 1 (daysInMonth year month)
  chars year month day

end CalendarDate

end DataContract
