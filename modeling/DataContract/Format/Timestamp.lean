import DataContract.Format.CalendarDate

/-!
# Timestamps

A date and a time of day with an offset from universal time: `2020-02-29T23:59:59.5+01:00`. Any one
ASCII character may stand between date and time, the fraction is optional, and universal time is
written as `Z`. A sixtieth second is a leap second: it must fall, in universal time, into the last
minute of a month.
-/

namespace DataContract

namespace Timestamp

/-- The offset from universal time in minutes that a text is. -/
def offset? (cs : List Char) : Option Int :=
  let minutes (cs : List Char) : Option Nat := do
    let (hours, cs) ← CalendarDate.fixedDigits? 2 cs
    let cs ← Text.stripStart? [':'] cs
    let (minutes, cs) ← CalendarDate.fixedDigits? 2 cs
    if cs.isEmpty && hours ≤ 23 && minutes ≤ 59 then some (hours * 60 + minutes) else none
  match cs with
  | ['Z'] => some 0
  | ['z'] => some 0
  | '+' :: rest => (minutes rest).map fun n => (n : Int)
  | '-' :: rest => (minutes rest).map fun n => -(n : Int)
  | _ => none

/-- What follows a fraction, if there is one; its point must have digits behind it. -/
def skipFraction? (cs : List Char) : Option (List Char) :=
  match cs with
  | '.' :: rest =>
    if (rest.takeWhile Char.isDigit).isEmpty then none else some (rest.dropWhile Char.isDigit)
  | cs => some cs

/-- The minutes of a day. -/
def dayMinutes : Int := 1440

/-- The minute falls, in universal time, into the last minute of a month. -/
def isLastMinute (year month day hour minute : Nat) (offset : Int) : Bool :=
  let n : Int := hour * 60 + minute - offset
  let days := CalendarDate.daysInMonth year month
  n % dayMinutes == dayMinutes - 1 &&
    (if n < 0 then day == 1 else if n < dayMinutes then day == days else day + 1 == days)

/-- The text is a timestamp. -/
def accepts (cs : List Char) : Bool :=
  let read : Option Bool := do
    let ((year, month, day), cs) ← CalendarDate.read? cs
    let (between, cs) ← cs.head?.map (·, cs.drop 1)
    let (hour, cs) ← CalendarDate.fixedDigits? 2 cs
    let cs ← Text.stripStart? [':'] cs
    let (minute, cs) ← CalendarDate.fixedDigits? 2 cs
    let cs ← Text.stripStart? [':'] cs
    let (second, cs) ← CalendarDate.fixedDigits? 2 cs
    let cs ← skipFraction? cs
    let offset ← offset? cs
    return between.toNat < 128 && CalendarDate.exists? year month day && hour ≤ 23 &&
      minute ≤ 59 && second ≤ 60 &&
      (second != 60 || isLastMinute year month day hour minute offset)
  read.getD false

/-- Any whole second of the twenty-first century, in universal time. -/
def generate (c : Choices) : List Char :=
  let two (i : Nat) (hi : Nat) : List Char := Decimal.padDigits 2 ((c.part i).between 0 hi)
  CalendarDate.generate (c.part 0) ++ 'T' :: two 1 23 ++ ':' :: two 2 59 ++ ':' :: two 3 59 ++ ['Z']

end Timestamp

end DataContract
