import InbandTrace.Text.Utf8
/-!
Universally unique identifiers: sixteen bytes, written as five groups of hexadecimal digits. The
digits without hyphens are read too, and so are the groups in braces or after `urn:uuid:`.
-/

namespace InbandTrace

structure Uuid where
  bytes : List UInt8
  length_eq : bytes.length = 16
  deriving DecidableEq, Repr

namespace Uuid

open Text

inductive Error where
  | length (found : Nat)
  | character (found : Char) (position : Nat)
  | groupCount (found : Nat)
  | groupLength (group expected found : Nat)
  deriving DecidableEq, Repr

def Error.message : Error → String
  | .length found => "invalid length: found " ++ number found
  | .character found position =>
      "invalid character: found `" ++ String.ofList [found] ++ "` at " ++ number position
  | .groupCount found => "invalid group count: expected 5, found " ++ number found
  | .groupLength group expected found =>
      "invalid group length in group " ++ number group ++ ": expected " ++ number expected
        ++ ", found " ++ number found

def groupLengths : List Nat := [8, 4, 4, 4, 12]

def ofBytes? (bytes : List UInt8) : Option Uuid :=
  if h : bytes.length = 16 then some ⟨bytes, h⟩ else none

def ofDigits? (s : List Char) : Option Uuid := do ofBytes? (← ofHexDigitPairs? s)

def ofGroups? (s : List Char) : Option Uuid :=
  let groups := splitOn '-' s
  if groups.map List.length = groupLengths then ofDigits? groups.flatten else none

def grouped : List Nat → List Char → List Char
  | [], _ => []
  | [_], s => s
  | n :: m :: rest, s => s.take n ++ '-' :: grouped (m :: rest) (s.drop n)

def text (u : Uuid) : List Char := grouped groupLengths (hexDigitPairs u.bytes)

def braced? (s : List Char) : Option (List Char) :=
  match s with
  | '\x7b' :: rest => if rest.getLast? = some '\x7d' then some rest.dropLast else none
  | _ => none

def urn? (s : List Char) : Option (List Char) :=
  if "urn:uuid:".toList.isPrefixOf s then some (s.drop 9) else none

structure Wrapping where
  inner : List Char
  offset : Nat

def wrapping? (s : List Char) : Option Wrapping :=
  match braced? s with
  | some inner => some ⟨inner, 1⟩
  | none => (urn? s).map fun inner => ⟨inner, 9⟩

def groupedLength : Nat := 36

def candidate? (s : List Char) : Option (List Char) :=
  if byteLength s = groupedLength then some s
  else (wrapping? s).bind fun w =>
    if byteLength w.inner = groupedLength then some w.inner else none

def isGroupCharacter (c : Char) : Bool := (hexDigit? c).isSome || c == '-'

/-- The first character that belongs to no group, with its position in bytes. -/
def firstStranger? (position : Nat) : List Char → Option (Char × Nat)
  | [] => none
  | c :: rest =>
      if isGroupCharacter c then firstStranger? (position + c.utf8Size) rest
      else some (c, position)

/-- The first of four groups that has a wrong length; the last group's length is what the whole
text has beyond them. -/
def wrongGroup (length : Nat) : (group : Nat) → (expected found : List Nat) → Error
  | i, e :: es, n :: ns =>
      if i < 4 ∧ e = n then wrongGroup length (i + 1) es ns
      else if i < 4 then .groupLength i e n
      else .groupLength 4 12 (length - 24)
  | _, _, _ => .groupLength 4 12 (length - 24)

/-- What is wrong with a text. It should be five groups if it is said to be, or has a hyphen. -/
def fault (grouped : Bool) (inner : List Char) (offset length : Nat) : Error :=
  match firstStranger? offset inner with
  | some (c, position) => .character c position
  | none =>
      let groups := splitOn '-' inner
      if groups.length = 1 && !grouped then .length length
      else if groups.length ≠ 5 then .groupCount groups.length
      else wrongGroup length 0 groupLengths (groups.map List.length)

def maxLength : Nat := 45

def ofText (s : List Char) : Except Error Uuid :=
  match candidate? s with
  | some inner =>
      match ofGroups? inner with
      | some u => .ok u
      | none => .error (fault true inner 0 (byteLength inner))
  | none =>
      match ofDigits? s with
      | some u => .ok u
      | none =>
          let length := byteLength s
          if length = 0 ∨ maxLength < length then .error (.length length)
          else match wrapping? s with
            | some w => .error (fault true w.inner w.offset length)
            | none => .error (fault false s 0 length)

end Uuid

end InbandTrace
