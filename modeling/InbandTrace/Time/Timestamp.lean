import InbandTrace.Text.Digits
/-!
Points of civil time in UTC and their texts. A timestamp counts seconds from the start of 1970;
its nanoseconds go on from 10 ^ 9 during a leap second, which follows the last second of a minute.
-/

namespace InbandTrace

structure Timestamp where
  seconds : Int
  nanos : Nat
  deriving DecidableEq, Repr, Inhabited

structure Date where
  year : Int
  month : Nat
  day : Nat
  deriving DecidableEq, Repr

namespace Date

/-- Days from the start of a year that begins on 1 March to the start of its `m`-th month. -/
def monthStart (m : Nat) : Nat := (153 * m + 2) / 5

/-- The date of a day, counted from 1 January 1970. Years are counted from March, in cycles of 400
years with 146097 days. -/
def ofDays (days : Int) : Date :=
  let shifted := days + 719468
  let cycle := shifted.fdiv 146097
  let day := (shifted.fmod 146097).toNat
  let year := (day - day / 1460 + day / 36524 - day / 146096) / 365
  let dayOfYear := day - (365 * year + year / 4 - year / 100)
  let m := (5 * dayOfYear + 2) / 153
  let month := if m < 10 then m + 3 else m - 9
  ⟨year + cycle * 400 + (if month ≤ 2 then 1 else 0), month, dayOfYear - monthStart m + 1⟩

def toDays (d : Date) : Int :=
  let year := if d.month ≤ 2 then d.year - 1 else d.year
  let cycle := year.fdiv 400
  let y := (year.fmod 400).toNat
  let m := if d.month ≤ 2 then d.month + 9 else d.month - 3
  let dayOfYear := monthStart m + d.day - 1
  cycle * 146097 + (y * 365 + y / 4 - y / 100 + dayOfYear : Nat) - 719468

def isLeap (year : Int) : Bool :=
  year.fmod 4 == 0 && (year.fmod 100 != 0 || year.fmod 400 == 0)

def monthLength (year : Int) (month : Nat) : Nat :=
  if month = 2 then (if isLeap year then 29 else 28)
  else if month = 4 ∨ month = 6 ∨ month = 9 ∨ month = 11 then 30 else 31

def isValid (d : Date) : Bool :=
  decide (-262143 ≤ d.year ∧ d.year ≤ 262142) && decide (1 ≤ d.month ∧ d.month ≤ 12)
    && decide (1 ≤ d.day ∧ d.day ≤ monthLength d.year d.month)

end Date

namespace Timestamp

def firstSecond : Int := -8334601228800

def lastSecond : Int := 8210266876799

def ofUnix? (seconds : Int) (nanos : Nat) : Option Timestamp :=
  if seconds < firstSecond ∨ lastSecond < seconds ∨ 2000000000 ≤ nanos then none
  else if 1000000000 ≤ nanos ∧ seconds.fmod 60 ≠ 59 then none
  else some ⟨seconds, nanos⟩

def date (t : Timestamp) : Date := .ofDays (t.seconds.fdiv 86400)

def secondOfDay (t : Timestamp) : Nat := (t.seconds.fmod 86400).toNat

open Text

def twoDigits (n : Nat) : List Char := padded 2 (decimal n)

/-- Four digits; a year that needs more, or is before the year 0, has a sign. -/
def yearText (year : Int) : List Char :=
  if 0 ≤ year ∧ year ≤ 9999 then padded 4 (decimal year.toNat)
  else (if year < 0 then '-' else '+') :: padded 4 (decimal year.natAbs)

def dateText (d : Date) : List Char :=
  yearText d.year ++ '-' :: twoDigits d.month ++ '-' :: twoDigits d.day

def clockText (t : Timestamp) : List Char :=
  let s := t.secondOfDay
  twoDigits (s / 3600) ++ ':' :: twoDigits (s / 60 % 60) ++ ':'
    :: twoDigits (s % 60 + t.nanos / 1000000000)

/-- Nanoseconds after the point: no digits, three, six or nine, as few as are exact. -/
def fractionText (nanos : Nat) : List Char :=
  if nanos = 0 then []
  else if nanos % 1000000 = 0 then '.' :: padded 3 (decimal (nanos / 1000000))
  else if nanos % 1000 = 0 then '.' :: padded 6 (decimal (nanos / 1000))
  else '.' :: padded 9 (decimal nanos)

/-- The form in the log: microseconds, cut off, and no offset. -/
def logText (t : Timestamp) : List Char :=
  dateText t.date ++ 'T' :: t.clockText ++ '.'
    :: padded 6 (decimal (t.nanos % 1000000000 / 1000))

def rfc3339 (t : Timestamp) : List Char :=
  dateText t.date ++ 'T' :: t.clockText ++ fractionText (t.nanos % 1000000000) ++ ['Z']

end Timestamp

end InbandTrace
