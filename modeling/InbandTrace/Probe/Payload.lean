import InbandTrace.Net.Address
/-!
The payload of a probe. Its length is the serial number modulo 96 over a floor of eight bytes, so
that 96 probes in a row differ in length, and every length fits in a control frame.
-/

namespace InbandTrace.Payload

def minimum : Nat := 8

def lengths : Nat := 96

def length (serial : UInt16) : Nat := minimum + serial.toNat % lengths

def magic : List UInt8 := [0x30, 0x74]

def header (serial : UInt16) (ttl : UInt8) : List UInt8 :=
  magic ++ [Net.highByte serial, Net.lowByte serial, ttl]

def bytes (serial : UInt16) (ttl : UInt8) : List UInt8 :=
  header serial ttl ++ (List.range (length serial - 5)).map Nat.toUInt8

theorem length_bytes (serial : UInt16) (ttl : UInt8) :
    (bytes serial ttl).length = length serial := by
  simp [bytes, header, magic, length, minimum]
  omega

theorem length_le (serial : UInt16) : length serial ≤ 103 := by
  simp only [length, minimum, lengths]
  omega

/-- A control frame puts two bytes in front of its payload. -/
def wireLength (payload : Nat) : Nat := 2 + payload

end InbandTrace.Payload

namespace InbandTrace

structure TcpInfo where
  /-- Segments retransmitted since the connection was opened. -/
  retransmitted : Nat
  unacknowledged : Nat
  timestamps : Bool
  deriving DecidableEq, Repr

/-- Bytes of IPv4 and TCP header in front of every data segment. -/
def TcpInfo.overhead (info : TcpInfo) : Nat := 20 + 20 + if info.timestamps then 12 else 0

end InbandTrace
