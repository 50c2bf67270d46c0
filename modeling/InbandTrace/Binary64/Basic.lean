/-!
Doubles as exact numbers. Every finite double is a whole multiple of 2 ^ (-1074), so its magnitude
is the natural number `mantissa * 2 ^ exponent` of such units. Arithmetic is exact arithmetic on
natural numbers with one rounding at the end: to the nearest double, a tie to the even mantissa.
-/

namespace InbandTrace

inductive Binary64 where
  | nan
  | infinite (negative : Bool)
  /-- The mantissa is below 2 ^ 53, and at least 2 ^ 52 unless the exponent is 0. -/
  | finite (negative : Bool) (mantissa exponent : Nat)
  deriving DecidableEq, Repr, Inhabited

def roundHalfEven (num den : Nat) : Nat :=
  let q := num / den
  let twice := 2 * (num % den)
  if twice < den then q else if den < twice then q + 1 else q + q % 2

namespace Binary64

/-- One, counted in units of 2 ^ (-1074). -/
def one : Nat := Nat.pow 2 1074

/-- The value of the leading bit of a mantissa, which is not stored. -/
def hidden : Nat := Nat.pow 2 52

def zero (negative : Bool) : Binary64 := finite negative 0 0

def normalize (negative : Bool) (mantissa exponent : Nat) : Binary64 :=
  let (m, e) := if mantissa = 2 * hidden then (hidden, exponent + 1) else (mantissa, exponent)
  if 2045 < e then infinite negative else finite negative m e

def ofRatio (negative : Bool) (num den : Nat) : Binary64 :=
  let scaled := num * one
  let e := Nat.log2 (scaled / den) - 52
  normalize negative (roundHalfEven scaled (den * Nat.pow 2 e)) e

def ofNat (n : Nat) : Binary64 := ofRatio false n 1

def units : Binary64 → Nat
  | finite _ m e => m * Nat.pow 2 e
  | _ => 0

def isNegative : Binary64 → Bool
  | nan => false
  | infinite s => s
  | finite s _ _ => s

def isFinite : Binary64 → Bool
  | finite .. => true
  | _ => false

def negate : Binary64 → Binary64
  | nan => nan
  | infinite s => infinite !s
  | finite s m e => finite (!s) m e

def mul (x y : Binary64) : Binary64 :=
  ofRatio (x.isNegative != y.isNegative) (x.units * y.units) (one * one)

/-- The quotient of two finite doubles, the second not zero. -/
def div (x y : Binary64) : Binary64 :=
  ofRatio (x.isNegative != y.isNegative) x.units y.units

def add (x y : Binary64) : Binary64 := ofRatio false (x.units + y.units) one

def isPositive : Binary64 → Bool
  | nan => false
  | infinite s => !s
  | finite s m _ => !s && m != 0

def exceeds (x : Binary64) (n : Nat) : Bool :=
  match x with
  | nan => false
  | infinite s => !s
  | finite s _ _ => !s && decide (n * one < x.units)

def signBit (negative : Bool) : Nat := if negative then 2048 * hidden else 0

def bits : Binary64 → Nat
  | nan => 0x7ff8000000000000
  | infinite s => signBit s + 2047 * hidden
  | finite s m e => signBit s + if m < hidden then m else (e + 1) * hidden + (m - hidden)

end Binary64

end InbandTrace
