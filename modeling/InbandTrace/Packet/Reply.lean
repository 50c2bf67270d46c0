import InbandTrace.Packet.Error
import InbandTrace.Probe.Hop
import InbandTrace.Probe.Token
/-!
ICMP errors. A router that drops a probe sends back an IPv4 datagram with an ICMP error, which
quotes the IPv4 header of the probe and the first bytes of its TCP segment. `Reply.ofDatagram`
checks the nested headers from the outside in and recovers the token of the probe.
-/

namespace InbandTrace.Packet

abbrev Bytes := List UInt8

structure Reply where
  responder : Net.Ip
  kind : ReplyKind
  token : Token
  quotedTtl : UInt8
  deriving DecidableEq, Repr

def byteAt (data : Bytes) (offset : Nat) : UInt8 := data.getD offset 0

def wordAt (data : Bytes) (offset : Nat) : UInt16 :=
  Net.word (byteAt data offset) (byteAt data (offset + 1))

def addressAt (data : Bytes) (offset : Nat) : Net.Ipv4 :=
  ⟨byteAt data offset, byteAt data (offset + 1), byteAt data (offset + 2),
    byteAt data (offset + 3)⟩

def require (data : Bytes) (length : Nat) : Except Error Unit :=
  if data.length < length then .error (.truncated length data.length) else .ok ()

def version (data : Bytes) : UInt8 := byteAt data 0 / 16

/-- The length of an IPv4 header in bytes: four times the lower half of its first byte. -/
def headerLength (data : Bytes) : Nat := (byteAt data 0 % 16).toNat * 4

def checkIpv4 (data : Bytes) : Except Error Nat := do
  require data 20
  if version data ≠ 4 then throw (.notIpv4 (version data))
  if headerLength data < 20 then throw (.badHeaderLength (headerLength data))
  require data (headerLength data)
  return headerLength data

def replyKind (type code : UInt8) : Except Error ReplyKind :=
  if type = 11 then .ok .timeExceeded
  else if type = 3 then .ok (.unreachable code)
  else .error (.ignored type)

def quotedProbe (quoted : Bytes) : Except Error (Token × UInt8) := do
  let header ← checkIpv4 quoted
  if byteAt quoted 9 ≠ 6 then throw (.notTcp (byteAt quoted 9))
  require quoted (header + 8)
  let src := Net.Socket.v4 (addressAt quoted 12) (wordAt quoted header)
  let dst := Net.Socket.v4 (addressAt quoted 16) (wordAt quoted (header + 2))
  return (⟨⟨src, dst⟩, wordAt quoted 2⟩, byteAt quoted 8)

def Reply.ofDatagram (data : Bytes) (responder : Net.Ip) : Except Error Reply := do
  let header ← checkIpv4 data
  if byteAt data 9 ≠ 1 then throw (.notIcmp (byteAt data 9))
  let icmp := data.drop header
  require icmp 8
  let kind ← replyKind (byteAt icmp 0) (byteAt icmp 1)
  let (token, quotedTtl) ← quotedProbe (icmp.drop 8)
  return ⟨responder, kind, token, quotedTtl⟩

end InbandTrace.Packet
