import InbandTrace.Time.Timestamp
/-!
Timestamps read from RFC 3339 text. The reader is lenient: blanks may stand between the parts,
numbers need not be padded, a year with a sign may have any number of digits, the colon of the
offset may be left out, and `UTC` is an offset too.
-/

namespace InbandTrace.Timestamp

open Text

def isBlank (c : Char) : Bool :=
  let n := c.toNat
  (9 ≤ n && n ≤ 13) || n == 0x20 || n == 0x85 || n == 0xA0 || n == 0x1680
    || (0x2000 ≤ n && n ≤ 0x200A) || n == 0x2028 || n == 0x2029 || n == 0x202F || n == 0x205F
    || n == 0x3000

def skipBlanks (s : List Char) : List Char := s.dropWhile isBlank

def number? (most : Nat) (s : List Char) : Option (Nat × List Char) :=
  match spanDigits decimalDigit? (s.take most) with
  | ([], _) => none
  | (ds, _) => some (ofDigits 10 ds, s.drop ds.length)

def field? (most : Nat) (s : List Char) : Option (Nat × List Char) := number? most (skipBlanks s)

/-- Four digits at most, or a sign and any number of digits. -/
def year? (s : List Char) : Option (Int × List Char) :=
  match skipBlanks s with
  | '-' :: r => (number? r.length r).map fun (n, rest) => (-(n : Int), rest)
  | '+' :: r => (number? r.length r).map fun (n, rest) => ((n : Int), rest)
  | r => (number? 4 r).map fun (n, rest) => ((n : Int), rest)

def separator? (c : Char) (s : List Char) : Option (List Char) :=
  match skipBlanks s with
  | [] => none
  | x :: rest => if x = c then some rest else none

def readDate (s : List Char) : Option (Date × List Char) := do
  let (year, s) ← year? s
  let s ← separator? '-' s
  let (month, s) ← field? 2 s
  let s ← separator? '-' s
  let (day, s) ← field? 2 s
  return (⟨year, month, day⟩, s)

/-- Nanoseconds after an optional point; digits after the ninth are dropped. -/
def readFraction (s : List Char) : Option (Nat × List Char) :=
  match s with
  | '.' :: r =>
      match spanDigits decimalDigit? r with
      | ([], _) => none
      | (ds, rest) =>
          let kept := ds.take 9
          some (ofDigits 10 kept * Nat.pow 10 (9 - kept.length), rest)
  | _ => some (0, s)

/-- The second of the day and the nanoseconds; second 60 is a leap second. -/
def readClock (s : List Char) : Option (Nat × Nat × List Char) := do
  let (hour, s) ← field? 2 s
  let s ← separator? ':' s
  let (minute, s) ← field? 2 s
  let s ← separator? ':' s
  let (second, s) ← field? 2 s
  let (nanos, s) ← readFraction s
  if 23 < hour ∨ 59 < minute ∨ 60 < second then none
  else if second = 60 then some (hour * 3600 + minute * 60 + 59, 1000000000 + nanos, s)
  else some (hour * 3600 + minute * 60 + second, nanos, s)

def pair? (top : Nat) : List Char → Option (Nat × List Char)
  | a :: b :: rest => do
      let x ← decimalDigit? a
      let y ← decimalDigit? b
      if top < x then none else return (x * 10 + y, rest)
  | _ => none

def isOffsetGap (c : Char) : Bool := c == ':' || isBlank c

/-- The offset from UTC in seconds: `Z`, `UTC`, or a sign with hours and minutes. -/
def readOffset (s : List Char) : Option (Int × List Char) :=
  if (s.take 3).map Char.toUpper = "UTC".toList then some (0, s.drop 3)
  else match s with
    | [] => none
    | c :: rest =>
        if c = 'Z' ∨ c = 'z' then some (0, rest)
        else if c = '+' ∨ c = '-' ∨ c = '−' then do
          let (hours, rest) ← pair? 9 rest
          let (minutes, rest) ← pair? 5 (rest.dropWhile isOffsetGap)
          let seconds : Int := hours * 3600 + minutes * 60
          if 86400 ≤ seconds then none
          else return (if c = '+' then seconds else -seconds, rest)
        else none

def afterDate : List Char → Option (List Char)
  | c :: rest => if c = 'T' ∨ c = 't' ∨ c = ' ' then some rest else none
  | [] => none

def ofText? (s : List Char) : Option Timestamp := do
  let (date, s) ← readDate s
  let s ← afterDate s
  let (second, nanos, s) ← readClock s
  let (offset, s) ← readOffset (skipBlanks s)
  if !(skipBlanks s).isEmpty || !date.isValid then none
  else
    let seconds := date.toDays * 86400 + second - offset
    if seconds < firstSecond ∨ lastSecond < seconds then none else some ⟨seconds, nanos⟩

end InbandTrace.Timestamp
