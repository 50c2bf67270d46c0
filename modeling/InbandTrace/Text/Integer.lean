import InbandTrace.Text.Digits

namespace InbandTrace.Text

inductive IntegerError where
  | empty
  | digit
  | tooLarge
  | tooSmall
  deriving DecidableEq, Repr

def IntegerError.message : IntegerError → String
  | .empty => "cannot parse integer from empty string"
  | .digit => "invalid digit found in string"
  | .tooLarge => "number too large to fit in target type"
  | .tooSmall => "number too small to fit in target type"

/-- Digits after those that make up `n`, which stays up to the bound. Whichever comes first decides:
a character that is no digit, or a digit that is too much. -/
def readDigits (bound : Nat) (n : Nat) : List Char → Except IntegerError Nat
  | [] => .ok n
  | c :: rest =>
      match decimalDigit? c with
      | none => .error .digit
      | some d =>
          if bound < n * 10 + d then .error .tooLarge else readDigits bound (n * 10 + d) rest

def readMagnitude (bound : Nat) : List Char → Except IntegerError Nat
  | [] => .error .digit
  | s => readDigits bound 0 s

def readInteger (s : List Char) : Except IntegerError Int :=
  match s with
  | [] => .error .empty
  | '-' :: rest =>
      match readMagnitude (Nat.pow 2 63) rest with
      | .ok n => .ok (-n)
      | .error .tooLarge => .error .tooSmall
      | .error e => .error e
  | '+' :: rest => (readMagnitude (Nat.pow 2 63 - 1) rest).map Int.ofNat
  | s => (readMagnitude (Nat.pow 2 63 - 1) s).map Int.ofNat

end InbandTrace.Text
