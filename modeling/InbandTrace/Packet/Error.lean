import InbandTrace.Text.Digits

namespace InbandTrace.Packet

inductive Error where
  | truncated (needed present : Nat)
  | notIpv4 (version : UInt8)
  | badHeaderLength (length : Nat)
  | notIcmp (protocol : UInt8)
  | ignored (type : UInt8)
  | notTcp (protocol : UInt8)
  deriving DecidableEq, Repr

open Text

def Error.message : Error → String
  | .truncated needed present =>
      "packet truncated: need " ++ number needed ++ " bytes, have " ++ number present
  | .notIpv4 version => "not an IPv4 packet (version " ++ number version.toNat ++ ")"
  | .badHeaderLength length => "bad IPv4 header length " ++ number length
  | .notIcmp protocol => "outer protocol " ++ number protocol.toNat ++ " is not ICMP"
  | .ignored type => "ICMP type " ++ number type.toNat ++ " is not an error we track"
  | .notTcp protocol =>
      "quoted datagram carries protocol " ++ number protocol.toNat ++ ", not TCP"

end InbandTrace.Packet
