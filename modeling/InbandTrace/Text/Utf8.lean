import InbandTrace.Text.Digits

namespace InbandTrace.Text

def utf8 (s : List Char) : List UInt8 := s.flatMap String.utf8EncodeChar

def byteLength : List Char → Nat
  | [] => 0
  | c :: rest => c.utf8Size + byteLength rest

def continuation (b : UInt8) : Bool := 0x80 ≤ b && b < 0xC0

def scalar? (n : Nat) : Option Char :=
  if h : n.isValidChar then some (Char.ofNatAux n h) else none

def payloadBits (b : UInt8) : Nat := b.toNat % 64

/-- The bytes of a well-formed text only: no overlong form, no surrogate, no loose byte. -/
def ofUtf8? : List UInt8 → Option (List Char)
  | [] => some []
  | a :: rest =>
      if a < 0x80 then
        (ofUtf8? rest).map (Char.ofNat a.toNat :: ·)
      else if a < 0xC2 then none
      else match rest with
        | [] => none
        | b :: rest =>
            if !continuation b then none
            else if a < 0xE0 then do
              let c ← scalar? (a.toNat % 32 * 64 + payloadBits b)
              return c :: (← ofUtf8? rest)
            else match rest with
              | [] => none
              | c :: rest =>
                  if !continuation c then none
                  else if a < 0xF0 then do
                    let n := a.toNat % 16 * 4096 + payloadBits b * 64 + payloadBits c
                    if n < 0x800 then none
                    else return (← scalar? n) :: (← ofUtf8? rest)
                  else match rest with
                    | [] => none
                    | d :: rest =>
                        if !continuation d || 0xF5 ≤ a then none
                        else do
                          let n := a.toNat % 8 * 262144 + payloadBits b * 4096
                            + payloadBits c * 64 + payloadBits d
                          if n < 0x10000 then none
                          else return (← scalar? n) :: (← ofUtf8? rest)

/-- The text of bytes that may end inside a character, which then shows as U+FFFD. -/
def ofCutUtf8? (bytes : List UInt8) : Option (List Char) :=
  (ofUtf8? bytes).orElse fun _ =>
    [1, 2, 3].findSome? fun n =>
      (ofUtf8? (bytes.take (bytes.length - n))).map (· ++ ['\uFFFD'])

def hexDigitPairs : List UInt8 → List Char
  | [] => []
  | b :: rest => padded 2 (hexadecimal b.toNat) ++ hexDigitPairs rest

def ofHexDigitPairs? : List Char → Option (List UInt8)
  | [] => some []
  | [_] => none
  | a :: b :: rest => do
      let high ← hexDigit? a
      let low ← hexDigit? b
      return (high * 16 + low).toUInt8 :: (← ofHexDigitPairs? rest)

end InbandTrace.Text
