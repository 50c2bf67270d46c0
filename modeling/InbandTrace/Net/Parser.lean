import InbandTrace.Net.Address
/-!
Addresses read from text. Each reader takes what it can from the front of a text and returns the
rest; `Ip.ofText?` and `Socket.ofText?` accept only a text that is used up.
-/

namespace InbandTrace.Net

open Text

def Ipv6.ofGroups? (groups : List UInt16) : Option Ipv6 :=
  if h : groups.length = 8 then some ⟨groups, h⟩ else none

theorem Ipv6.ofGroups?_groups (x : Ipv6) : ofGroups? x.groups = some x := by
  simp [ofGroups?, x.length_eq]

def literal (c : Char) : List Char → Option (List Char)
  | [] => none
  | x :: rest => if x = c then some rest else none

def octet (s : List Char) : Option (UInt8 × List Char) :=
  let (digits, rest) := spanDigits decimalDigit? s
  let n := ofDigits 10 digits
  if digits.length = 0 ∨ 3 < digits.length ∨ 255 < n then none
  else if digits.head? = some 0 ∧ 1 < digits.length then none
  else some (n.toUInt8, rest)

def readIpv4 (s : List Char) : Option (Ipv4 × List Char) := do
  let (a, s) ← octet s
  let s ← literal '.' s
  let (b, s) ← octet s
  let s ← literal '.' s
  let (c, s) ← octet s
  let s ← literal '.' s
  let (d, s) ← octet s
  return (⟨a, b, c, d⟩, s)

def group (s : List Char) : Option (UInt16 × List Char) :=
  let (digits, rest) := spanDigits hexDigit? s
  if digits.length = 0 ∨ 4 < digits.length then none
  else some ((ofDigits 16 digits).toUInt16, rest)

def separated (first : Bool) (s : List Char) : Option (List Char) :=
  if first then some s else literal ':' s

/-- Colon-separated groups, at most `room` of them; an IPv4 address counts as the last two groups.
The flag tells whether one was read. -/
def readGroups : (room : Nat) → (first : Bool) → List Char → List UInt16 × Bool × List Char
  | 0, _, s => ([], false, s)
  | room + 1, first, s =>
      match separated first s with
      | none => ([], false, s)
      | some inner =>
          match (if 0 < room then readIpv4 inner else none) with
          | some (x, rest) => ([word x.a x.b, word x.c x.d], true, rest)
          | none =>
              match group inner with
              | none => ([], false, s)
              | some (g, rest) =>
                  let (gs, tail) := readGroups room false rest
                  (g :: gs, tail)

/-- Eight groups, or fewer with one `::` for at least one zero group. -/
def readIpv6 (s : List Char) : Option (Ipv6 × List Char) := do
  let (front, embedded, s) := readGroups 8 true s
  if front.length = 8 then
    return (← Ipv6.ofGroups? front, s)
  if embedded then none
  let s ← literal ':' s
  let s ← literal ':' s
  let (back, _, s) := readGroups (7 - front.length) true s
  let zeros := List.replicate (8 - front.length - back.length) 0
  return (← Ipv6.ofGroups? (front ++ zeros ++ back), s)

def boundedNumber (bound : Nat) (s : List Char) : Option (Nat × List Char) :=
  let (digits, rest) := spanDigits decimalDigit? s
  if digits.length = 0 ∨ bound ≤ ofDigits 10 digits then none
  else some (ofDigits 10 digits, rest)

def readPort (s : List Char) : Option (UInt16 × List Char) := do
  let s ← literal ':' s
  let (n, s) ← boundedNumber 65536 s
  return (n.toUInt16, s)

def readScope (s : List Char) : UInt32 × List Char :=
  match literal '%' s with
  | none => (0, s)
  | some inner =>
      match boundedNumber 4294967296 inner with
      | none => (0, s)
      | some (n, rest) => (n.toUInt32, rest)

def readSocketV4 (s : List Char) : Option (Socket × List Char) := do
  let (x, s) ← readIpv4 s
  let (port, s) ← readPort s
  return (.v4 x port, s)

def readSocketV6 (s : List Char) : Option (Socket × List Char) := do
  let s ← literal '[' s
  let (x, s) ← readIpv6 s
  let (scope, s) := readScope s
  let s ← literal ']' s
  let (port, s) ← readPort s
  return (.v6 x port scope, s)

def complete {α : Type} : Option (α × List Char) → Option α
  | some (x, []) => some x
  | _ => none

def Ip.ofText? (s : List Char) : Option Ip :=
  complete <| match readIpv4 s with
    | some (x, rest) => some (.v4 x, rest)
    | none => (readIpv6 s).map fun (x, rest) => (.v6 x, rest)

def Socket.ofText? (s : List Char) : Option Socket :=
  complete <| match readSocketV4 s with
    | some r => some r
    | none => readSocketV6 s

end InbandTrace.Net
