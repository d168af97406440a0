import LetPoly.Yaml.Datum.Number

/-! # Times in YAML texts

A date, or a date and the time of a day, perhaps with a time zone.
-/

namespace LetPoly.Yaml

/-- A time zone. Those that are some hours off have a name of their own. -/
inductive Zone where
  | universal
  | hours (n : Int)
  | unnamed
  deriving DecidableEq

/-- A time, as the seconds and nanoseconds since a fixed one. -/
structure Time where
  second : Int
  nanosecond : Nat := 0
  zone : Zone := .universal
  deriving DecidableEq

/-- One or two digits and what follows them. -/
def shortNumber? : List Char → Option (Nat × List Char)
  | a :: b :: cs => do
    guard a.isDigit
    if b.isDigit then
      return (← digitsValue? 10 [a, b], cs)
    else
      return (← digitsValue? 10 [a], b :: cs)
  | cs => (digitsValue? 10 cs).map (·, [])

/-- What follows a character that the text has to go on with. -/
def expect? (c : Char) : List Char → Option (List Char)
  | x :: cs => if x == c then some cs else none
  | [] => none

/-- Whether a year has a 29th of February. -/
def isLeap (year : Nat) : Bool :=
  year % 4 == 0 && (year % 100 != 0 || year % 400 == 0)

/-- The number of days of a month. -/
def daysIn (year month : Nat) : Nat :=
  if month == 2 then if isLeap year then 29 else 28
  else if [4, 6, 9, 11].contains month then 30
  else 31

/-- The number of days before a year, counted from a fixed one on. -/
def daysBefore (year : Nat) : Int :=
  365 * year + (year + 3) / 4 - (year + 99) / 100 + (year + 399) / 400

/-- A date and what follows it: a year of four digits, a month and a day. The date is given as a
number of days. -/
def date? (cs : List Char) : Option (Int × List Char) := do
  let year ← digitsValue? 10 (cs.take 4)
  guard ((cs.take 4).length == 4)
  let (month, cs) ← shortNumber? (← expect? '-' (cs.drop 4))
  guard (1 ≤ month && month ≤ 12)
  let (day, cs) ← shortNumber? (← expect? '-' cs)
  guard (1 ≤ day && day ≤ daysIn year month)
  let months := (List.range' 1 (month - 1)).map (daysIn year)
  return (daysBefore year + (months.foldl (· + ·) day : Nat), cs)

/-- The time of a day and what follows it: hours, minutes and seconds, perhaps with a fraction. The
time is given in seconds and nanoseconds; further digits of the fraction do not count. -/
def clock? (cs : List Char) : Option (Nat × Nat × List Char) := do
  let (hour, cs) ← shortNumber? cs
  let (minute, cs) ← shortNumber? (← expect? ':' cs)
  let (second, cs) ← shortNumber? (← expect? ':' cs)
  guard (hour < 24 && minute < 60 && second < 60)
  let seconds := (60 * hour + minute) * 60 + second
  match cs with
  | p :: d :: ds =>
    if (p == '.' || p == ',') && d.isDigit then
      let (fraction, cs) := (d :: ds).span Char.isDigit
      return (seconds, ← digitsValue? 10 ((fraction ++ List.replicate 9 '0').take 9), cs)
    else
      return (seconds, 0, cs)
  | _ => return (seconds, 0, cs)

/-- A time zone and its distance in seconds: the letter Z, or hours and minutes behind a sign. -/
def zone? : List Char → Option (Zone × Int)
  | ['Z'] => some (.universal, 0)
  | [sign, a, b, ':', c, d] => do
    let hours ← digitsValue? 10 [a, b]
    let minutes ← digitsValue? 10 [c, d]
    guard ((sign == '+' || sign == '-') && hours ≤ 24 && minutes ≤ 60)
    let distance : Int := (60 * hours + minutes) * 60
    let distance := if sign == '-' then -distance else distance
    let n := distance / 3600
    return (if n * 3600 == distance && -12 ≤ n && n ≤ 14 then .hours n else .unnamed, distance)
  | _ => none

/-- A date, or a date and the time of a day: behind spaces, or behind the letter T and then with a
time zone. -/
def Time.ofText? (cs : List Char) : Option Time := do
  let (days, cs) ← date? cs
  let midnight := 86400 * days
  match cs with
  | [] => return { second := midnight }
  | c :: cs =>
    if c == 'T' || c == 't' then
      let (seconds, nanosecond, cs) ← clock? cs
      let (zone, distance) ← zone? cs
      return { second := midnight + seconds - distance, nanosecond, zone }
    else
      guard (c == ' ')
      let (seconds, nanosecond, cs) ← clock? (cs.dropWhile (· == ' '))
      guard cs.isEmpty
      return { second := midnight + seconds, nanosecond }

end LetPoly.Yaml
