import InbandTrace.Text.Digits

namespace InbandTrace.Net

structure Ipv4 where
  a : UInt8
  b : UInt8
  c : UInt8
  d : UInt8
  deriving DecidableEq, Repr, Inhabited

structure Ipv6 where
  groups : List UInt16
  length_eq : groups.length = 8
  deriving DecidableEq, Repr

inductive Ip where
  | v4 (address : Ipv4)
  | v6 (address : Ipv6)
  deriving DecidableEq, Repr

def Ipv4.unspecified : Ipv4 := ⟨0, 0, 0, 0⟩

instance : Inhabited Ip := ⟨.v4 .unspecified⟩

def word (high low : UInt8) : UInt16 := high.toUInt16 * 256 + low.toUInt16

def highByte (w : UInt16) : UInt8 := (w / 256).toUInt8

def lowByte (w : UInt16) : UInt8 := w.toUInt8

def Ipv4.bytes (x : Ipv4) : List UInt8 := [x.a, x.b, x.c, x.d]

def Ipv6.mapped? (x : Ipv6) : Option Ipv4 :=
  match x.groups with
  | [0, 0, 0, 0, 0, 0xffff, g, h] => some ⟨highByte g, lowByte g, highByte h, lowByte h⟩
  | _ => none

/-- An IPv4-mapped address becomes the IPv4 address; every other address stays. -/
def Ip.canonical : Ip → Ip
  | .v4 x => .v4 x
  | .v6 x => match x.mapped? with
      | some y => .v4 y
      | none => .v6 x

def Ip.isV4 : Ip → Bool
  | .v4 _ => true
  | .v6 _ => false

/-- An address with a port; an IPv6 address may name a scope, 0 for none. -/
inductive Socket where
  | v4 (address : Ipv4) (port : UInt16)
  | v6 (address : Ipv6) (port : UInt16) (scope : UInt32)
  deriving DecidableEq, Repr

def Socket.ip : Socket → Ip
  | .v4 x _ => .v4 x
  | .v6 x _ _ => .v6 x

def Socket.port : Socket → UInt16
  | .v4 _ p => p
  | .v6 _ p _ => p

def Socket.ofIp (ip : Ip) (port : UInt16) : Socket :=
  match ip with
  | .v4 x => .v4 x port
  | .v6 x => .v6 x port 0

def Socket.canonical (s : Socket) : Socket := .ofIp s.ip.canonical s.port

instance : Inhabited Socket := ⟨.v4 .unspecified 0⟩

open Text

def Ipv4.text (x : Ipv4) : List Char :=
  decimal x.a.toNat ++ '.' :: decimal x.b.toNat ++ '.' :: decimal x.c.toNat
    ++ '.' :: decimal x.d.toNat

def groupsText : List UInt16 → List Char
  | [] => []
  | [g] => hexadecimal g.toNat
  | g :: rest => hexadecimal g.toNat ++ ':' :: groupsText rest

def leadingZeros : List UInt16 → Nat
  | [] => 0
  | g :: rest => if g = 0 then leadingZeros rest + 1 else 0

/-- Start and length of the longest run of zero groups, the first of several; the first argument
is the position of the list in the address. -/
def longestZeroRun : Nat → List UInt16 → Nat × Nat
  | at_, [] => (at_, 0)
  | at_, g :: rest =>
      let here := leadingZeros (g :: rest)
      let later := longestZeroRun (at_ + 1) rest
      if later.2 ≤ here then (at_, here) else later

/-- RFC 5952: the longest run of at least two zero groups is left out, and only an IPv4-mapped
address shows its IPv4 part. -/
def Ipv6.text (x : Ipv6) : List Char :=
  match x.mapped? with
  | some y => "::ffff:".toList ++ y.text
  | none =>
      let (start, length) := longestZeroRun 0 x.groups
      if 1 < length then
        groupsText (x.groups.take start) ++ "::".toList
          ++ groupsText (x.groups.drop (start + length))
      else groupsText x.groups

def Ip.text : Ip → List Char
  | .v4 x => x.text
  | .v6 x => x.text

def Socket.text : Socket → List Char
  | .v4 x port => x.text ++ ':' :: decimal port.toNat
  | .v6 x port scope =>
      '[' :: x.text ++ (if scope = 0 then [] else '%' :: decimal scope.toNat)
        ++ ']' :: ':' :: decimal port.toNat

end InbandTrace.Net
