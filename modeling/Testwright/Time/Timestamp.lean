import Testwright.Number.Binary64
import Testwright.Text.Basic

/-!
# Points in time

A `Timestamp` is a date and a time of day in coordinated universal time. It is written as
`2024-05-06T07:08:09.5Z` (RFC 3339), and read in a form that also admits blanks between the parts,
a blank in place of the `T` and any offset from universal time.
-/

namespace Testwright

/-- A date and a time of day in universal time. A leap second is the second 60. -/
structure Timestamp where
  year : Int
  month : Nat
  day : Nat
  hour : Nat
  minute : Nat
  second : Nat
  nanos : Nat
  deriving DecidableEq, Repr, Inhabited

namespace Timestamp

/-! ## The calendar -/

/-- Whether a year has a 29th of February. -/
def isLeap (year : Int) : Bool := year % 4 == 0 && (year % 100 != 0 || year % 400 == 0)

def daysIn (year : Int) (month : Nat) : Nat :=
  if month = 2 then (if isLeap year then 29 else 28)
  else if month = 4 ∨ month = 6 ∨ month = 9 ∨ month = 11 then 30
  else 31

def dayBefore (t : Timestamp) : Timestamp :=
  if 1 < t.day then { t with day := t.day - 1 }
  else if 1 < t.month then { t with month := t.month - 1, day := daysIn t.year (t.month - 1) }
  else { t with year := t.year - 1, month := 12, day := 31 }

def dayAfter (t : Timestamp) : Timestamp :=
  if t.day < daysIn t.year t.month then { t with day := t.day + 1 }
  else if t.month < 12 then { t with month := t.month + 1, day := 1 }
  else { t with year := t.year + 1, month := 1, day := 1 }

/-- The same moment where the given time of day is ahead of universal time by some minutes, less
than a day. -/
def behind (t : Timestamp) (minutes : Int) : Timestamp :=
  let total : Int := t.hour * 60 + t.minute - minutes
  let day := if total < 0 then t.dayBefore else if 1440 ≤ total then t.dayAfter else t
  let ofDay := (total % 1440).toNat
  { day with hour := ofDay / 60, minute := ofDay % 60 }

/-- Whether the parts make a date and a time of day. -/
def isValid (t : Timestamp) : Bool :=
  -262143 ≤ t.year && t.year ≤ 262142 && 1 ≤ t.month && t.month ≤ 12 && 1 ≤ t.day &&
    t.day ≤ daysIn t.year t.month && t.hour < 24 && t.minute < 60 && t.second ≤ 60 &&
    t.nanos < 1000000000

/-! ## Counting from 1970 -/

/-- The date of a day counted from the first of January 1970. Years are taken to begin in March, so
that a leap day ends its year, and are counted in cycles of 400. -/
def ofDay (day : Int) : Timestamp :=
  let shifted := day + 719468
  let inCycle := (shifted % 146097).toNat
  let yearOfCycle := (inCycle - inCycle / 1460 + inCycle / 36524 - inCycle / 146096) / 365
  let inYear := inCycle - (365 * yearOfCycle + yearOfCycle / 4 - yearOfCycle / 100)
  let month := (5 * inYear + 2) / 153
  let early := 10 ≤ month
  { year := yearOfCycle + shifted / 146097 * 400 + if early then 1 else 0
    month := if early then month - 9 else month + 3
    day := inYear - (153 * month + 2) / 5 + 1
    hour := 0, minute := 0, second := 0, nanos := 0 }

/-- The point in time some nanoseconds after the beginning of 1970. -/
def ofNanoseconds (nanos : Int) : Timestamp :=
  let seconds := nanos / 1000000000
  let inDay := (seconds % 86400).toNat
  { ofDay (seconds / 86400) with
    hour := inDay / 3600
    minute := inDay / 60 % 60
    second := inDay % 60
    nanos := (nanos % 1000000000).toNat }

/-! ## Writing -/

/-- The fraction of a second with three, six or nine places, or none if it is zero. -/
def fractionText (nanos : Nat) : String :=
  if nanos = 0 then ""
  else if nanos % 1000000 = 0 then "." ++ Binary64.padded 10 3 (nanos / 1000000)
  else if nanos % 1000 = 0 then "." ++ Binary64.padded 10 6 (nanos / 1000)
  else "." ++ Binary64.padded 10 9 nanos

/-- A year has four digits, or a sign and more. -/
def yearText (year : Int) : String :=
  if 0 ≤ year ∧ year ≤ 9999 then Binary64.padded 10 4 year.toNat
  else (if year < 0 then "-" else "+") ++ Binary64.padded 10 4 year.natAbs

/-- The written form. -/
def text (t : Timestamp) : String :=
  let two := Binary64.padded 10 2
  yearText t.year ++ "-" ++ two t.month ++ "-" ++ two t.day ++ "T" ++ two t.hour ++ ":" ++
    two t.minute ++ ":" ++ two t.second ++ fractionText t.nanos ++ "Z"

/-! ## Reading -/

def digitsValue (ds : List Char) : Nat :=
  ds.foldl (fun n c => n * 10 + (c.toNat - '0'.toNat)) 0

/-- A number of at least one and at most `width` digits. -/
def number? (width : Nat) (s : List Char) : Option (Nat × List Char) :=
  match (s.takeWhile Char.isDigit).take width with
  | [] => none
  | ds => some (digitsValue ds, s.drop ds.length)

/-- A number of at most `width` digits behind blanks. -/
def spacedNumber? (width : Nat) (s : List Char) : Option (Nat × List Char) :=
  number? width (Text.trimStart s)

/-- A character behind blanks. -/
def spacedChar? (c : Char) (s : List Char) : Option (List Char) :=
  Text.dropPrefix? [c] (Text.trimStart s)

/-- A year: four digits, or a sign and any number of digits. -/
def year? (s : List Char) : Option (Int × List Char) :=
  match Text.trimStart s with
  | '-' :: r => (number? r.length r).map fun (n, r) => (-(n : Int), r)
  | '+' :: r => (number? r.length r).map fun (n, r) => ((n : Int), r)
  | r => (number? 4 r).map fun (n, r) => ((n : Int), r)

/-- A fraction of a second in nanoseconds; digits after the ninth do not count. -/
def fraction? : List Char → Option (Nat × List Char)
  | '.' :: r =>
    match r.takeWhile Char.isDigit with
    | [] => none
    | ds =>
      let kept := ds.take 9
      some (digitsValue kept * Nat.pow 10 (9 - kept.length), r.drop ds.length)
  | r => some (0, r)

def hoursMinutes? (s : List Char) : Option (Nat × List Char) :=
  match s with
  | a :: b :: r =>
    if a.isDigit && b.isDigit then
      match r.dropWhile fun c => c == ':' || Text.isBlank c with
      | c :: d :: r =>
        if c.isDigit && d.isDigit && c < '6' then
          some (digitsValue [a, b] * 60 + digitsValue [c, d], r)
        else none
      | _ => none
    else none
  | _ => none

/-- An offset from universal time in minutes. -/
def offset? (s : List Char) : Option (Int × List Char) :=
  match s with
  | [] => none
  | c :: r =>
    if c = 'z' ∨ c = 'Z' then some (0, r)
    else if c = '+' then (hoursMinutes? r).map fun (m, r) => ((m : Int), r)
    else if c = '-' ∨ c = '−' then (hoursMinutes? r).map fun (m, r) => (-(m : Int), r)
    else if (s.take 3).map Char.toLower = ['u', 't', 'c'] then some (0, s.drop 3)
    else none

/-- A point in time from its written form. -/
def parse? (text : String) : Option Timestamp := do
  let (year, s) ← year? text.toList
  let s ← spacedChar? '-' s
  let (month, s) ← spacedNumber? 2 s
  let s ← spacedChar? '-' s
  let (day, s) ← spacedNumber? 2 s
  let s ← match s with
    | c :: r => if c = 'T' ∨ c = 't' ∨ c = ' ' then some r else none
    | [] => none
  let (hour, s) ← spacedNumber? 2 s
  let s ← spacedChar? ':' s
  let (minute, s) ← spacedNumber? 2 s
  let s ← spacedChar? ':' s
  let (second, s) ← spacedNumber? 2 s
  let (nanos, s) ← fraction? s
  let (offset, s) ← offset? (Text.trimStart s)
  let t : Timestamp := { year, month, day, hour, minute, second, nanos }
  if (Text.trimStart s).isEmpty && t.isValid && offset.natAbs < 1440 then
    some (if offset = 0 then t else t.behind offset)
  else none

end Timestamp

end Testwright
