import InbandTrace.Binary64.Basic
import InbandTrace.Probe.Hop

namespace InbandTrace.Span

def perSecond : Nat := 1000000000

def ofMillis (n : Nat) : Span := n * 1000000

def secondsBelow : Nat := Nat.pow 2 64

/-- Seconds as the nearest nanosecond, a half going to the even one. Nothing for NaN, for what is
below zero and for what is too long; minus zero is zero. -/
def ofSeconds? : Binary64 → Option Span
  | .finite negative m e =>
      let units := m * Nat.pow 2 e
      if negative && m != 0 then none
      else if secondsBelow * Binary64.one ≤ units then none
      else some (roundHalfEven (units * perSecond) Binary64.one)
  | _ => none

def toSeconds (t : Span) : Binary64 :=
  (Binary64.ofNat (t / perSecond)).add
    ((Binary64.ofNat (t % perSecond)).div (Binary64.ofNat perSecond))

def toMillis (t : Span) : Binary64 := t.toSeconds.mul (Binary64.ofNat 1000)

/-- Milliseconds as a span; what is below zero counts as zero. -/
def ofMillis? (ms : Binary64) : Option Span :=
  ofSeconds? ((if ms.isPositive then ms else .zero false).div (Binary64.ofNat 1000))

def outOfRange : String :=
  "cannot convert float seconds to Duration: value is either too big or NaN"

end InbandTrace.Span
