import InbandTrace.Binary64.Decimal
/-!
JSON numbers: their grammar and their value. A numeral without fraction and exponent that fits in
64 bits is an integer; every other one is a double, which need not be the nearest: the leading
digits that fit in 64 bits are taken as a whole number, that is rounded to a double, and the double
is multiplied or divided by a power of ten, with a rounding each time.
-/

namespace InbandTrace.Json

open Text

inductive Number where
  | natural (n : UInt64)
  /-- Minus `n`, which is at most 2 ^ 63 and not 0. -/
  | negative (n : UInt64)
  | float (x : Binary64)
  deriving DecidableEq, Repr

def Number.text : Number → List Char
  | .natural n => decimal n.toNat
  | .negative n => '-' :: decimal n.toNat
  | .float x => x.jsonText

def Number.toBinary64 : Number → Binary64
  | .natural n => .ofNat n.toNat
  | .negative n => (Binary64.ofNat n.toNat).negate
  | .float x => x

/-- A numeral as it is written. The lists of digits after the point and after `e` are empty where
there is no point and no `e`. -/
structure Numeral where
  negative : Bool
  whole : List Nat
  fraction : List Nat
  exponentNegative : Bool
  exponent : List Nat
  deriving DecidableEq, Repr

def wholePart (s : List Char) : Option (List Nat × List Char) :=
  match spanDigits decimalDigit? s with
  | ([], _) => none
  | (0 :: _ :: _, _) => none
  | r => some r

def fractionPart (s : List Char) : Option (List Nat × List Char) :=
  match s with
  | '.' :: rest =>
      match spanDigits decimalDigit? rest with
      | ([], _) => none
      | r => some r
  | _ => some ([], s)

def exponentPart (s : List Char) : Option (Bool × List Nat × List Char) :=
  match s with
  | c :: rest =>
      if c = 'e' ∨ c = 'E' then
        let (negative, rest) := match rest with
          | '-' :: r => (true, r)
          | '+' :: r => (false, r)
          | _ => (false, rest)
        match spanDigits decimalDigit? rest with
        | ([], _) => none
        | (ds, tail) => some (negative, ds, tail)
      else some (false, [], s)
  | [] => some (false, [], s)

def numeral (s : List Char) : Option (Numeral × List Char) := do
  let (negative, s) := match s with
    | '-' :: r => (true, r)
    | _ => (false, s)
  let (whole, s) ← wholePart s
  let (fraction, s) ← fractionPart s
  let (exponentNegative, exponent, s) ← exponentPart s
  return (⟨negative, whole, fraction, exponentNegative, exponent⟩, s)

/-- Appends digits to a number while it fits in 64 bits; the number and the digits left over. -/
def absorb : Nat → List Nat → Nat × List Nat
  | n, [] => (n, [])
  | n, d :: rest => if n * 10 + d < Nat.pow 2 64 then absorb (n * 10 + d) rest else (n, d :: rest)

/-- A double divided by `10 ^ k`, in steps of at most `10 ^ 308`; two steps leave nothing. -/
def scaleDown (x : Binary64) (k : Nat) : Binary64 :=
  if k ≤ 308 then x.div (Binary64.powerOfTen k)
  else if k ≤ 616 then
    (x.div (Binary64.powerOfTen 308)).div (Binary64.powerOfTen (k - 308))
  else .zero false

def scaleUp? (x : Binary64) (k : Nat) : Option Binary64 :=
  if x.units = 0 then some x
  else if 308 < k then none
  else
    let y := x.mul (Binary64.powerOfTen k)
    if y.isFinite then some y else none

def scale? (x : Binary64) (e : Int) : Option Binary64 :=
  if e < 0 then some (scaleDown x (-e).toNat) else scaleUp? x e.toNat

def maxExponent : Nat := 2147483647

namespace Numeral

def magnitude? (x : Numeral) : Option Binary64 :=
  let (n, dropped) := absorb 0 x.whole
  let (m, left) := absorb n x.fraction
  let shift : Int := (dropped.length : Int) - ((x.fraction.length - left.length : Nat) : Int)
  let e := ofDigits 10 x.exponent
  if maxExponent < e then
    if m = 0 ∨ x.exponentNegative then some (.zero false) else none
  else
    scale? (Binary64.ofNat m) (if x.exponentNegative then shift - (e : Int) else shift + (e : Int))

def isInteger (x : Numeral) : Bool := x.fraction.isEmpty && x.exponent.isEmpty

def number? (x : Numeral) : Option Number :=
  let n := ofDigits 10 x.whole
  if x.isInteger && n < Nat.pow 2 64 && !x.negative then some (.natural n.toUInt64)
  else if x.isInteger && n ≤ Nat.pow 2 63 && n != 0 then some (.negative n.toUInt64)
  else do
    let y ← x.magnitude?
    return .float (if x.negative then y.negate else y)

end Numeral

end InbandTrace.Json
