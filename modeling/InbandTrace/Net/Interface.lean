import InbandTrace.Net.Address

namespace InbandTrace.Net

structure Interface where
  name : String
  addresses : List Ip
  deriving DecidableEq, Repr

inductive InterfaceError where
  | notFound (name : String) (others : List String)
  | noIpv4 (name : String)
  deriving DecidableEq, Repr

def InterfaceError.message : InterfaceError → String
  | .notFound name others =>
      "Interface '" ++ name ++ "' not found. Available interfaces: "
        ++ if others.isEmpty then "(none with IP addresses)" else ", ".intercalate others
  | .noIpv4 name =>
      "Interface '" ++ name ++ "' has no IPv4 address. Tracing requires IPv4."

def Ipv4.isLoopback (x : Ipv4) : Bool := x.a == 127

namespace Interface

def ipv4s (i : Interface) : List Ipv4 :=
  i.addresses.filterMap fun
    | .v4 x => some x
    | .v6 _ => none

/-- The first address of IPv4, a loopback address only if there is no other. -/
def ipv4? (i : Interface) : Option Ipv4 :=
  (i.ipv4s.find? fun x => !x.isLoopback).or i.ipv4s.head?

def find (name : String) (interfaces : List Interface) :
    Except InterfaceError (Interface × Ipv4) :=
  match interfaces.find? fun i => i.name == name with
  | none =>
      .error (.notFound name
        ((interfaces.filter fun i => !i.addresses.isEmpty).map Interface.name))
  | some i =>
      match i.ipv4? with
      | none => .error (.noIpv4 name)
      | some x => .ok (i, x)

end Interface

end InbandTrace.Net
