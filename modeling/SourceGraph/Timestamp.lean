import SourceGraph.Text.Blank

/-!
# Timestamps

Points in time as civil dates and times in UTC, in the form of RFC 3339. Reading is relaxed: blanks
may stand between the fields, which may have fewer digits, and any offset is accepted. Writing takes
the fewest of 0, 3, 6 or 9 decimals.

* `Timestamp`: a date and a time; second 60 is a leap second.
* `Timestamp.ofSeconds`: the time that a clock shows.
* `Timestamp.parse?`: the time in UTC that a text with an offset means.
* `Timestamp.text`: the written form.
-/

set_option autoImplicit false

namespace SourceGraph

/-- A point in time, in UTC. -/
structure Timestamp where
  year : Int
  month : Nat
  day : Nat
  hour : Nat
  minute : Nat
  second : Nat
  nano : Nat
deriving DecidableEq, Inhabited

namespace Timestamp

/-! ## Calendar -/

/-- Whether a year is a leap year. -/
def isLeap (year : Int) : Bool := year % 4 = 0 && (year % 100 ≠ 0 || year % 400 = 0)

/-- The number of days of a month. -/
def daysIn (year : Int) (month : Nat) : Nat :=
  if month = 2 then if isLeap year then 29 else 28
  else if [4, 6, 9, 11].contains month then 30
  else 31

/-- The years that are accepted. -/
def isYear (year : Int) : Bool := -262143 ≤ year && year ≤ 262142

/-- The day after a date. -/
def nextDay (t : Timestamp) : Timestamp :=
  if t.day < daysIn t.year t.month then { t with day := t.day + 1 }
  else if t.month < 12 then { t with month := t.month + 1, day := 1 }
  else { t with year := t.year + 1, month := 1, day := 1 }

/-- The day before a date. -/
def previousDay (t : Timestamp) : Timestamp :=
  if 1 < t.day then { t with day := t.day - 1 }
  else if 1 < t.month then
    { t with month := t.month - 1, day := daysIn t.year (t.month - 1) }
  else { t with year := t.year - 1, month := 12, day := 31 }

/-- The same point in time in UTC, for a local time that is `offset` minutes ahead. -/
def toUtc (t : Timestamp) (offset : Int) : Timestamp :=
  let minutes : Int := (t.hour * 60 + t.minute : Nat) - offset
  let dated :=
    if minutes < 0 then t.previousDay else if 1440 ≤ minutes then t.nextDay else t
  let inDay := (minutes % 1440).toNat
  { dated with hour := inDay / 60, minute := inDay % 60 }

/-- The date some days after the first one of 1970, at midnight. -/
def ofDays (days : Nat) : Timestamp :=
  let shifted := days + 719468
  let inEra := shifted % 146097
  let years := (inEra - inEra / 1460 + inEra / 36524 - inEra / 146096) / 365
  let inYear := inEra - (365 * years + years / 4 - years / 100)
  let month := (5 * inYear + 2) / 153
  let day := inYear - (153 * month + 2) / 5 + 1
  let year := years + shifted / 146097 * 400
  { year := if month < 10 then year else year + 1
    month := if month < 10 then month + 3 else month - 9
    day, hour := 0, minute := 0, second := 0, nano := 0 }

/-- The point in time some seconds after the start of 1970. -/
def ofSeconds (seconds nano : Nat) : Timestamp :=
  { ofDays (seconds / 86400) with
    hour := seconds % 86400 / 3600
    minute := seconds % 3600 / 60
    second := seconds % 60
    nano }

/-! ## Reading -/

/-- The value of decimal digits. -/
def valueOf (ds : List Char) : Nat := ds.foldl (fun n d => n * 10 + (d.toNat - 48)) 0

/-- Between one and `most` digits. -/
def digits? (most : Nat) (cs : List Char) : Option (List Char × List Char) :=
  match (cs.take most).takeWhile Char.isDigit with
  | [] => none
  | ds => some (ds, cs.drop ds.length)

/-- A number of at most `most` digits within bounds, after blanks. -/
def field? (most low high : Nat) (cs : List Char) : Option (Nat × List Char) := do
  let (ds, rest) ← digits? most (Text.trimStart cs)
  let v := valueOf ds
  if low ≤ v ∧ v ≤ high then return (v, rest) else none

/-- A year: up to four digits, or a sign and any number of them. -/
def year? (cs : List Char) : Option (Int × List Char) := do
  let cs := Text.trimStart cs
  let (year, rest) ← match cs with
    | '-' :: rest => (digits? rest.length rest).map fun r => (-(valueOf r.1 : Int), r.2)
    | '+' :: rest => (digits? rest.length rest).map fun r => ((valueOf r.1 : Int), r.2)
    | cs => (digits? 4 cs).map fun r => ((valueOf r.1 : Int), r.2)
  if isYear year then return (year, rest) else none

/-- What follows a character, which may have blanks in front. -/
def mark? (c : Char) (cs : List Char) : Option (List Char) :=
  match Text.trimStart cs with
  | d :: rest => if d = c then some rest else none
  | [] => none

/-- The billionths after a point, if there is one; digits after the ninth do not count. -/
def fraction? : List Char → Option (Nat × List Char)
  | '.' :: rest => do
    let (ds, rest) ← digits? 9 rest
    return (valueOf ds * Nat.pow 10 (9 - ds.length), rest.dropWhile Char.isDigit)
  | rest => some (0, rest)

/-- The minutes of an offset with a sign: two digits, separators, two digits. -/
def signed? (cs : List Char) : Option (Int × List Char) := do
  let (hours, rest) ← digits? 2 cs
  guard (hours.length = 2)
  let rest := rest.dropWhile fun c => c == ':' || Text.isBlank c
  let (minutes, rest) ← digits? 2 rest
  guard (minutes.length = 2 ∧ valueOf minutes < 60 ∧ valueOf hours < 24)
  return ((valueOf hours * 60 + valueOf minutes : Nat), rest)

/-- The minutes of an offset. -/
def offset? (cs : List Char) : Option (Int × List Char) :=
  if (cs.take 3).map Char.toUpper = ['U', 'T', 'C'] then some (0, cs.drop 3)
  else
    match cs with
    | c :: rest =>
      if c = 'Z' ∨ c = 'z' then some (0, rest)
      else if c = '+' then signed? rest
      else if c = '-' ∨ c = '−' then (signed? rest).map fun r => (-r.1, r.2)
      else none
    | [] => none

/-- The point in time that a text with an offset means. -/
def parse? (s : String) : Option Timestamp := do
  let (year, rest) ← year? s.toList
  let (month, rest) ← field? 2 1 12 (← mark? '-' rest)
  let (day, rest) ← field? 2 1 (daysIn year month) (← mark? '-' rest)
  let rest ← match rest with
    | c :: rest => if c = 'T' ∨ c = 't' ∨ c = ' ' then some rest else none
    | [] => none
  let (hour, rest) ← field? 2 0 23 rest
  let (minute, rest) ← field? 2 0 59 (← mark? ':' rest)
  let (second, rest) ← field? 2 0 60 (← mark? ':' rest)
  let (nano, rest) ← fraction? rest
  let (offset, rest) ← offset? (Text.trimStart rest)
  guard (Text.trimStart rest = [])
  let t := toUtc { year, month, day, hour, minute, second, nano } offset
  if isYear t.year then return t else none

/-! ## Writing -/

/-- A number with at least `width` digits. -/
def padded (width n : Nat) : String :=
  let ds := toString n
  String.ofList (List.replicate (width - ds.length) '0') ++ ds

/-- A year: four digits, with a sign outside of those years. -/
def yearText (year : Int) : String :=
  if 0 ≤ year ∧ year ≤ 9999 then padded 4 year.toNat
  else (if year < 0 then "-" else "+") ++ padded 4 year.natAbs

/-- The decimals of a second: as many groups of three as are needed. -/
def fractionText (nano : Nat) : String :=
  if nano = 0 then ""
  else if nano % 1000000 = 0 then "." ++ padded 3 (nano / 1000000)
  else if nano % 1000 = 0 then "." ++ padded 6 (nano / 1000)
  else "." ++ padded 9 nano

/-- The date. -/
def dateText (t : Timestamp) : String :=
  yearText t.year ++ "-" ++ padded 2 t.month ++ "-" ++ padded 2 t.day

/-- The time of day, in whole seconds. -/
def timeText (t : Timestamp) : String :=
  padded 2 t.hour ++ ":" ++ padded 2 t.minute ++ ":" ++ padded 2 t.second

/-- The written form. -/
def text (t : Timestamp) : String :=
  t.dateText ++ "T" ++ t.timeText ++ fractionText t.nano ++ "Z"

/-- The form that is shown to people. -/
def shown (t : Timestamp) : String := t.dateText ++ " " ++ t.timeText

end Timestamp

end SourceGraph
