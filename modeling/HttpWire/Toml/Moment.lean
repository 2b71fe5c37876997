import HttpWire.Text.Numeral
import HttpWire.Toml.Scan

/-!
# Dates and times

A date, a time of day, or both joined by a `T` or a space, and then with an optional offset from
universal time. No setting is a date, so `skipMoment?` only reads over one, but each has to exist in
the calendar.
-/

set_option autoImplicit false

namespace HttpWire.Toml

/-- Reads a number of exactly `count` digits. -/
def fixedDigits (count : Nat) (cs : List Char) : Option (Nat × List Char) :=
  if cs.length < count then none
  else (Text.decimal? (Nat.pow 10 count) (cs.take count)).map (·, cs.drop count)

/-- Reads a number of two digits, not above `high`. -/
def two (high : Nat) (cs : List Char) : Option (Nat × List Char) :=
  match fixedDigits 2 cs with
  | none => none
  | some (n, rest) => if n ≤ high then some (n, rest) else none

/-- The text after one given character. -/
def skip? (mark : Char) : List Char → Option (List Char)
  | [] => none
  | c :: rest => if c == mark then some rest else none

/-- Whether a year of the Gregorian calendar has a 29 February. -/
def isLeap (year : Nat) : Bool :=
  year % 4 == 0 && (year % 100 != 0 || year % 400 == 0)

/-- The number of days in a month. -/
def daysIn (year month : Nat) : Nat :=
  if month = 2 then if isLeap year then 29 else 28
  else if month = 4 ∨ month = 6 ∨ month = 9 ∨ month = 11 then 30
  else 31

/-- The text after a date. -/
def skipDate? (cs : List Char) : Option (List Char) := do
  let (year, cs) ← fixedDigits 4 cs
  let cs ← skip? '-' cs
  let (month, cs) ← two 12 cs
  let cs ← skip? '-' cs
  let (day, cs) ← two (daysIn year month) cs
  if month = 0 ∨ day = 0 then none else some cs

/-- The text after a fraction of a second, if one stands here. -/
def skipSecondFraction : List Char → List Char
  | '.' :: c :: rest => if c.isDigit then rest.dropWhile Char.isDigit else '.' :: c :: rest
  | cs => cs

/-- The text after a time of day. The last minute of a day may have 61 seconds. -/
def skipTime? (cs : List Char) : Option (List Char) := do
  let (_, cs) ← two 23 cs
  let cs ← skip? ':' cs
  let (_, cs) ← two 59 cs
  let cs ← skip? ':' cs
  let (_, cs) ← two 60 cs
  return skipSecondFraction cs

/-- The text after an offset from universal time. -/
def skipOffset? : List Char → Option (List Char)
  | [] => none
  | c :: rest =>
      if c == 'Z' || c == 'z' then some rest
      else if c == '+' || c == '-' then do
        let (_, cs) ← two 23 rest
        let cs ← skip? ':' cs
        let (_, cs) ← two 59 cs
        return cs
      else none

/-- The text after a time of day and its offset, if they stand here behind a mark. -/
def skipTimeOfDate : List Char → List Char
  | [] => []
  | c :: rest =>
      if c == 'T' || c == 't' || c == ' ' then
        match skipTime? rest with
        | none => c :: rest
        | some after => (skipOffset? after).getD after
      else c :: rest

/-- The text after a date, a time of day, or both. -/
def skipMoment? (cs : List Char) : Option (List Char) :=
  match skipDate? cs with
  | some rest => some (skipTimeOfDate rest)
  | none => skipTime? cs

end HttpWire.Toml
