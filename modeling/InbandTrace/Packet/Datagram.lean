import InbandTrace.Packet.Reply

namespace InbandTrace.Packet

def wordBytes (w : UInt16) : Bytes := [Net.highByte w, Net.lowByte w]

/-- An IPv4 header. The options take a multiple of four bytes, forty at most. -/
structure Ipv4Header where
  service : UInt8 := 0
  totalLength : UInt16
  identification : UInt16 := 0
  fragment : UInt16 := 0
  ttl : UInt8
  protocol : UInt8
  checksum : UInt16 := 0
  src : Net.Ipv4
  dst : Net.Ipv4
  options : Bytes := []

def Ipv4Header.firstByte (h : Ipv4Header) : UInt8 := 64 + (5 + h.options.length / 4).toUInt8

def Ipv4Header.bytes (h : Ipv4Header) : Bytes :=
  [h.firstByte, h.service] ++ wordBytes h.totalLength ++ wordBytes h.identification
    ++ wordBytes h.fragment ++ [h.ttl, h.protocol] ++ wordBytes h.checksum
    ++ h.src.bytes ++ h.dst.bytes ++ h.options

structure IcmpError where
  outer : Ipv4Header
  type : UInt8
  code : UInt8
  checksum : UInt16 := 0
  unused : Bytes := [0, 0, 0, 0]
  quoted : Ipv4Header
  srcPort : UInt16
  dstPort : UInt16
  sequence : Bytes := [0, 0, 0, 0]
  trailing : Bytes := []

def IcmpError.bytes (e : IcmpError) : Bytes :=
  e.outer.bytes ++ [e.type, e.code] ++ wordBytes e.checksum ++ e.unused
    ++ e.quoted.bytes ++ wordBytes e.srcPort ++ wordBytes e.dstPort ++ e.sequence ++ e.trailing

def ipv4Of : Net.Ip → Net.Ipv4
  | .v4 x => x
  | .v6 _ => .unspecified

/-- The error a router sends about the probe with the given token: plain headers and the eight
bytes that every router quotes. -/
def IcmpError.about (token : Token) (router : Net.Ip) (type code : UInt8) : IcmpError where
  outer :=
    { totalLength := 56, ttl := 64, protocol := 1,
      src := ipv4Of router, dst := ipv4Of token.flow.src.ip }
  type := type
  code := code
  quoted :=
    { totalLength := token.ipLength, ttl := 1, protocol := 6,
      src := ipv4Of token.flow.src.ip, dst := ipv4Of token.flow.dst.ip }
  srcPort := token.flow.src.port
  dstPort := token.flow.dst.port

end InbandTrace.Packet
