import InbandTrace.Json.Numeral
import InbandTrace.Json.Quoted

namespace InbandTrace.Json

inductive Raw where
  | null
  | bool (b : Bool)
  | number (x : Numeral)
  | string (s : List Piece)
  | array (items : List Raw)
  | object (members : List (List Piece × Raw))

def isBlank (c : Char) : Bool := c == ' ' || c == '\n' || c == '\t' || c == '\r'

def skipBlanks (s : List Char) : List Char := s.dropWhile isBlank

def literal : List Char → List Char → Option (List Char)
  | [], s => some s
  | _ :: _, [] => none
  | c :: cs, x :: s => if x = c then literal cs s else none

def punctuation (c : Char) (s : List Char) : Option (List Char) := literal [c] (skipBlanks s)

def quoted (s : List Char) : Option (List Piece × List Char) := do pieces (← punctuation '"' s)

mutual

/-- A value from the front of a text. The first argument bounds the depth; the length of the text
is always enough. -/
def rawValue : Nat → List Char → Option (Raw × List Char)
  | 0, _ => none
  | depth + 1, s =>
      match skipBlanks s with
      | [] => none
      | c :: rest =>
          if c = 'n' then (literal "ull".toList rest).map (Raw.null, ·)
          else if c = 't' then (literal "rue".toList rest).map (Raw.bool true, ·)
          else if c = 'f' then (literal "alse".toList rest).map (Raw.bool false, ·)
          else if c = '"' then (pieces rest).map fun (s, tail) => (.string s, tail)
          else if c = '[' then
            match punctuation ']' rest with
            | some tail => some (.array [], tail)
            | none => (rawItems depth rest).map fun (items, tail) => (.array items, tail)
          else if c = '\x7b' then
            match punctuation '\x7d' rest with
            | some tail => some (.object [], tail)
            | none => (rawMembers depth rest).map fun (members, tail) => (.object members, tail)
          else (numeral (c :: rest)).map fun (x, tail) => (.number x, tail)

def rawItems : Nat → List Char → Option (List Raw × List Char)
  | 0, _ => none
  | depth + 1, s => do
      let (item, s) ← rawValue depth s
      match punctuation ']' s with
      | some tail => return ([item], tail)
      | none =>
          let (items, tail) ← rawItems depth (← punctuation ',' s)
          return (item :: items, tail)

def rawMembers : Nat → List Char → Option (List (List Piece × Raw) × List Char)
  | 0, _ => none
  | depth + 1, s => do
      let (key, s) ← quoted s
      let (value, s) ← rawValue depth (← punctuation ':' s)
      match punctuation '\x7d' s with
      | some tail => return ([(key, value)], tail)
      | none =>
          let (members, tail) ← rawMembers depth (← punctuation ',' s)
          return ((key, value) :: members, tail)

end

def readRaw (s : List Char) : Option (Raw × List Char) := rawValue (s.length + 1) s

end InbandTrace.Json
