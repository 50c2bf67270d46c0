import InbandTrace.Json.Value
import InbandTrace.Net.Parser
/-!
Typed values read straight from JSON text, from left to right: the first fault met decides. A record
is an object or an array of its fields in order; members that belong to no field are skipped by
their grammar alone.
-/

namespace InbandTrace.Json

inductive Failure where
  | malformed
  | overlong
  deriving DecidableEq, Repr

abbrev Reader (α : Type) := List Char → Except Failure (α × List Char)

namespace Reader

variable {α β σ : Type}

def ofOption : Option α → Except Failure α
  | some x => .ok x
  | none => .error .malformed

def map (f : α → β) (r : Reader α) : Reader β := fun s => do
  let (x, rest) ← r s
  return (f x, rest)

def whole (r : Reader α) (s : List Char) : Except Failure α := do
  let (x, rest) ← r s
  if (skipBlanks rest).isEmpty then return x else throw .malformed

def expect (c : Char) (s : List Char) : Except Failure (List Char) :=
  ofOption (punctuation c s)

def text : Reader (List Char) := fun s => do
  let (ps, rest) ← ofOption (quoted s)
  return (← ofOption (decode? ps), rest)

def parsed (form : List Char → Option α) : Reader α := fun s => do
  let (t, rest) ← text s
  return (← ofOption (form t), rest)

def ip : Reader Net.Ip := parsed Net.Ip.ofText?

def socket : Reader Net.Socket := parsed Net.Socket.ofText?

def number : Reader Number := fun s => do
  let (x, rest) ← ofOption (numeral (skipBlanks s))
  return (← ofOption x.number?, rest)

def naturalBelow (bound : Nat) : Reader Nat := fun s => do
  match ← number s with
  | (.natural n, rest) => if n.toNat < bound then return (n.toNat, rest) else throw .malformed
  | _ => throw .malformed

def uint8 : Reader UInt8 := (naturalBelow 256).map Nat.toUInt8

def uint16 : Reader UInt16 := (naturalBelow 65536).map Nat.toUInt16

def float : Reader Binary64 := number.map Number.toBinary64

def bool : Reader Bool := fun s =>
  match literal "true".toList (skipBlanks s) with
  | some rest => .ok (true, rest)
  | none => do return (false, ← ofOption (literal "false".toList (skipBlanks s)))

def null : Reader Unit := fun s => do
  return ((), ← ofOption (literal "null".toList (skipBlanks s)))

def optional (r : Reader α) : Reader (Option α) := fun s =>
  match skipBlanks s with
  | 'n' :: _ => (null.map fun _ => none) s
  | _ => (r.map some) s

def skipped : Reader Unit := fun s => do
  let (_, rest) ← ofOption (readRaw s)
  return ((), rest)

/-- Items after the opening bracket, at least one and at most the given number. -/
def items (r : Reader α) : Nat → Reader (List α)
  | 0, _ => .error .malformed
  | n + 1, s => do
      let (x, s) ← r s
      match punctuation ']' s with
      | some rest => return ([x], rest)
      | none =>
          let (xs, rest) ← items r n (← expect ',' s)
          return (x :: xs, rest)

def list (r : Reader α) : Reader (List α) := fun s => do
  let s ← expect '[' s
  match punctuation ']' s with
  | some rest => return ([], rest)
  | none => items r s.length s

structure Field (σ : Type) where
  name : String
  isSet : σ → Bool
  read : σ → Reader σ

def fieldItems : List (Field σ) → (first : Bool) → σ → Reader σ
  | [], _, x, s => do return (x, ← expect ']' s)
  | f :: fs, first, x, s => do
      let s ← if first then pure s else expect ',' s
      let (x, s) ← f.read x s
      fieldItems fs false x s

def fieldMembers (fields : List (Field σ)) : Nat → σ → Reader σ
  | 0, _, _ => .error .malformed
  | n + 1, x, s => do
      let (key, s) ← text s
      let s ← expect ':' s
      let (x, s) ← match fields.find? fun f => f.name.toList == key with
        | some f => if f.isSet x then throw .malformed else f.read x s
        | none => (skipped.map fun _ => x) s
      match punctuation '\x7d' s with
      | some rest => return (x, rest)
      | none => fieldMembers fields n x (← expect ',' s)

/-- A record, none of whose fields is given twice. -/
def record (fields : List (Field σ)) (empty : σ) : Reader σ := fun s =>
  match punctuation '[' s with
  | some rest => fieldItems fields true empty rest
  | none => do
      let s ← expect '\x7b' s
      match punctuation '\x7d' s with
      | some rest => return (empty, rest)
      | none => fieldMembers fields s.length empty s

def complete (finish : σ → Option α) (r : Reader σ) : Reader α := fun s => do
  let (x, rest) ← r s
  return (← ofOption (finish x), rest)

inductive Variant (α : Type) where
  | bare (name : String) (value : α)
  | holding (name : String) (content : Reader α)

def Variant.name : Variant α → String
  | .bare n _ => n
  | .holding n _ => n

/-- A bare name is a string, or an object with that single key and `null`; a name with content is
an object with that single key. -/
def enumeration (variants : List (Variant α)) : Reader α := fun s =>
  match punctuation '\x7b' s with
  | some inner => do
      let (key, s) ← text inner
      let s ← expect ':' s
      let (x, s) ← match variants.find? fun v => v.name.toList == key with
        | some (.bare _ x) => (null.map fun _ => x) s
        | some (.holding _ r) => r s
        | none => throw .malformed
      return (x, ← expect '\x7d' s)
  | none => do
      let (name, rest) ← text s
      match variants.find? fun v => v.name.toList == name with
      | some (.bare _ x) => return (x, rest)
      | _ => throw .malformed

end Reader

end InbandTrace.Json
