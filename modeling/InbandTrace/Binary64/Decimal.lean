import InbandTrace.Binary64.Basic
import InbandTrace.Text.Digits

namespace InbandTrace.Binary64

open Text

def ofDecimal (negative : Bool) (n : Nat) (e : Int) : Binary64 :=
  let magnitude := e + (decimal n).length
  if n = 0 ∨ magnitude < -330 then zero negative
  else if 310 < magnitude then infinite negative
  else if 0 ≤ e then ofRatio negative (n * Nat.pow 10 e.toNat) 1
  else ofRatio negative n (Nat.pow 10 (-e).toNat)

def powerOfTen (k : Nat) : Binary64 := ofNat (Nat.pow 10 k)

/-- The numbers that round to a finite double, as an interval in quarters of a unit. -/
structure Interval where
  low : Nat
  middle : Nat
  high : Nat
  closed : Bool

def interval (mantissa exponent : Nat) : Interval where
  low := (4 * mantissa - if mantissa = hidden ∧ 0 < exponent then 1 else 2) * Nat.pow 2 exponent
  middle := 4 * mantissa * Nat.pow 2 exponent
  high := (4 * mantissa + 2) * Nat.pow 2 exponent
  closed := mantissa % 2 == 0

/-- The grid with number `n` consists of the multiples of `10 ^ (n - 324)`. -/
def gridStep (n : Nat) : Nat := Nat.pow 10 n * (4 * one)

def onGridScale (x : Nat) : Nat := x * Nat.pow 10 324

def Interval.contains (i : Interval) (x : Nat) : Bool :=
  if i.closed then decide (onGridScale i.low ≤ x ∧ x ≤ onGridScale i.high)
  else decide (onGridScale i.low < x ∧ x < onGridScale i.high)

/-- The point of a grid in the interval that is nearest to the middle, if there is one. Only the two
neighbours of the middle can be; of two equally near the even one is taken. -/
def Interval.nearest? (i : Interval) (n : Nat) : Option Nat :=
  let step := gridStep n
  let below := onGridScale i.middle / step
  let above := below + 1
  let nearer := roundHalfEven (onGridScale i.middle) step
  if i.contains (nearer * step) then some nearer
  else if i.contains (below * step) then some below
  else if i.contains (above * step) then some above
  else none

def Interval.coarsest (i : Interval) : Nat → Nat × Nat
  | 0 => (0, (i.nearest? 0).getD 0)
  | n + 1 =>
      match i.nearest? (n + 1) with
      | some c => (n + 1, c)
      | none => i.coarsest n

/-- The fewest digits that read back as the double with the given mantissa and exponent, and the
power of ten of the last digit. -/
def shortest (mantissa exponent : Nat) : List Char × Int :=
  let (n, c) := (interval mantissa exponent).coarsest 633
  (decimal c, (n : Int) - 324)

def plainFrom : Int := -5

def plainBelow : Int := 16

def plain (digits : List Char) (k : Int) : List Char :=
  if k < 0 then '0' :: '.' :: List.replicate ((-k).toNat - 1) '0' ++ digits
  else
    let whole := k.toNat + 1
    if digits.length ≤ whole then
      digits ++ List.replicate (whole - digits.length) '0' ++ ".0".toList
    else digits.take whole ++ '.' :: digits.drop whole

def exponential (digits : List Char) (k : Int) : List Char :=
  let mantissa := match digits with
    | [] => []
    | [d] => [d]
    | d :: rest => d :: '.' :: rest
  mantissa ++ 'e' :: (if k < 0 then '-' else '+') :: decimal k.natAbs

def magnitudeText (mantissa exponent : Nat) : List Char :=
  if mantissa = 0 then "0.0".toList
  else
    let (digits, last) := shortest mantissa exponent
    let k := last + digits.length - 1
    if plainFrom ≤ k ∧ k < plainBelow then plain digits k else exponential digits k

def jsonText : Binary64 → List Char
  | finite s m e => if s then '-' :: magnitudeText m e else magnitudeText m e
  | _ => "null".toList

inductive ReadError where
  | empty
  | malformed
  deriving DecidableEq, Repr

def ReadError.message : ReadError → String
  | .empty => "cannot parse float from empty string"
  | .malformed => "invalid float literal"

def toLower (s : List Char) : List Char := s.map Char.toLower

def exponentOf? (s : List Char) : Option Int :=
  let (negative, rest) := match s with
    | '-' :: r => (true, r)
    | '+' :: r => (false, r)
    | _ => (false, s)
  match spanDigits decimalDigit? rest with
  | ([], _) => none
  | (ds, []) => some (if negative then -(ofDigits 10 ds : Int) else ofDigits 10 ds)
  | _ => none

def unsigned? (negative : Bool) (s : List Char) : Option Binary64 := do
  let (whole, rest) := spanDigits decimalDigit? s
  let (fraction, rest) := match rest with
    | '.' :: r => spanDigits decimalDigit? r
    | _ => ([], rest)
  if whole.isEmpty && fraction.isEmpty then none
  let shift : Int := -(fraction.length : Int)
  let n := ofDigits 10 (whole ++ fraction)
  match rest with
  | [] => return ofDecimal negative n shift
  | c :: r =>
      if c = 'e' ∨ c = 'E' then
        return ofDecimal negative n (shift + (← exponentOf? r))
      else none

/-- A double from its spelling: decimal digits, `inf`, `infinity` or `nan` in any case, with an
optional sign. -/
def ofText (s : List Char) : Except ReadError Binary64 :=
  let (negative, rest) := match s with
    | '-' :: r => (true, r)
    | '+' :: r => (false, r)
    | _ => (false, s)
  if s.isEmpty then .error .empty
  else if toLower rest = "inf".toList ∨ toLower rest = "infinity".toList then
    .ok (infinite negative)
  else if toLower rest = "nan".toList then .ok nan
  else match unsigned? negative rest with
    | some x => .ok x
    | none => .error .malformed

end InbandTrace.Binary64
