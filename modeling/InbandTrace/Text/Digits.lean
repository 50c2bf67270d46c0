namespace InbandTrace.Text

def decimal (n : Nat) : List Char := Nat.toDigits 10 n

def hexadecimal (n : Nat) : List Char := Nat.toDigits 16 n

def number (n : Nat) : String := String.ofList (decimal n)

def padded (width : Nat) (s : List Char) : List Char :=
  List.replicate (width - s.length) '0' ++ s

def decimalDigit? (c : Char) : Option Nat :=
  if c.isDigit then some (c.toNat - 48) else none

def hexDigit? (c : Char) : Option Nat :=
  if c.isDigit then some (c.toNat - 48)
  else if 97 ≤ c.toNat ∧ c.toNat ≤ 102 then some (c.toNat - 87)
  else if 65 ≤ c.toNat ∧ c.toNat ≤ 70 then some (c.toNat - 55)
  else none

def ofDigits (base : Nat) (digits : List Nat) : Nat :=
  digits.foldl (fun n d => n * base + d) 0

def spanDigits (digit? : Char → Option Nat) : List Char → List Nat × List Char
  | [] => ([], [])
  | c :: rest =>
      match digit? c with
      | some d => (d :: (spanDigits digit? rest).1, (spanDigits digit? rest).2)
      | none => ([], c :: rest)

theorem length_spanDigits_le (digit? : Char → Option Nat) (s : List Char) :
    (spanDigits digit? s).2.length ≤ s.length := by
  induction s with
  | nil => simp [spanDigits]
  | cons c rest ih =>
      simp only [spanDigits]
      split
      · simp; omega
      · simp

def splitOn (separator : Char) : List Char → List (List Char)
  | [] => [[]]
  | c :: rest =>
      if c = separator then [] :: splitOn separator rest
      else match splitOn separator rest with
        | [] => [[c]]
        | part :: parts => (c :: part) :: parts

end InbandTrace.Text
