import InbandTrace.Text.Digits
import InbandTrace.Text.Utf8

namespace InbandTrace.Json

open Text

inductive Piece where
  | char (c : Char)
  | unit (n : Nat)
  deriving DecidableEq, Repr

def shortEscape? (c : Char) : Option Char :=
  if c = '"' ∨ c = '\\' ∨ c = '/' then some c
  else if c = 'b' then some '\x08'
  else if c = 't' then some '\t'
  else if c = 'n' then some '\n'
  else if c = 'f' then some '\x0c'
  else if c = 'r' then some '\r'
  else none

def codeUnit? (a b c d : Char) : Option Nat := do
  return ofDigits 16 [← hexDigit? a, ← hexDigit? b, ← hexDigit? c, ← hexDigit? d]

def pieces : List Char → Option (List Piece × List Char)
  | [] => none
  | c :: rest =>
      if c = '"' then some ([], rest)
      else if c = '\\' then
        match rest with
        | [] => none
        | e :: rest =>
            if e = 'u' then
              match rest with
              | a :: b :: c :: d :: rest => do
                  let n ← codeUnit? a b c d
                  let (ps, tail) ← pieces rest
                  return (.unit n :: ps, tail)
              | _ => none
            else do
              let x ← shortEscape? e
              let (ps, tail) ← pieces rest
              return (.char x :: ps, tail)
      else if c.toNat < 0x20 then none
      else do
        let (ps, tail) ← pieces rest
        return (.char c :: ps, tail)

def isHighSurrogate (n : Nat) : Bool := 0xD800 ≤ n && n < 0xDC00

def isLowSurrogate (n : Nat) : Bool := 0xDC00 ≤ n && n < 0xE000

/-- The characters of a string; surrogates count only in pairs. -/
def decode? : List Piece → Option (List Char)
  | [] => some []
  | .char c :: rest => (decode? rest).map (c :: ·)
  | .unit n :: rest =>
      if isHighSurrogate n then
        match rest with
        | .unit m :: rest =>
            if isLowSurrogate m then do
              let c ← scalar? (0x10000 + (n - 0xD800) * 0x400 + (m - 0xDC00))
              return c :: (← decode? rest)
            else none
        | _ => none
      else do
        let c ← scalar? n
        return c :: (← decode? rest)

def escape (c : Char) : List Char :=
  if c = '"' then ['\\', '"']
  else if c = '\\' then ['\\', '\\']
  else if c = '\x08' then ['\\', 'b']
  else if c = '\t' then ['\\', 't']
  else if c = '\n' then ['\\', 'n']
  else if c = '\x0c' then ['\\', 'f']
  else if c = '\r' then ['\\', 'r']
  else if c.toNat < 0x20 then '\\' :: 'u' :: padded 4 (hexadecimal c.toNat)
  else [c]

def quote (s : List Char) : List Char := '"' :: s.flatMap escape ++ ['"']

theorem newline_notMem_escape (c : Char) : '\n' ∉ escape c := by
  unfold escape
  repeat' split
  all_goals try simp
  · rename_i h
    have : ∀ n < 0x20, '\n' ∉ padded 4 (hexadecimal n) := by decide
    exact this _ h
  · exact Ne.symm (by assumption)

theorem newline_notMem_quote (s : List Char) : '\n' ∉ quote s := by
  simp [quote, newline_notMem_escape]

end InbandTrace.Json
