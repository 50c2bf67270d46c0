import InbandTrace.Connection.Behaviour
import InbandTrace.Packet.Datagram

namespace InbandTrace

def ReplyKind.icmp : ReplyKind → UInt8 × UInt8
  | .timeExceeded => (11, 0)
  | .unreachable code => (3, code)
  | .destination => (0, 0)

def pingLength (info : TcpInfo) (payload : List UInt8) : Nat :=
  info.overhead + Payload.wireLength payload.length

def Event.quoting (flow : Flow) (info : TcpInfo) (router : Net.Ip) (kind : ReplyKind)
    (offset : Int) (payload : List UInt8) : Event :=
  let length := (pingLength info payload + offset) % 65536
  let token : Token := ⟨flow, length.toNat.toUInt16⟩
  .packet (Packet.IcmpError.about token router kind.icmp.1 kind.icmp.2).bytes router

inductive Router where
  | silent
  /-- Answers after a time: that the probe is unreachable for a reason, or that it has expired. -/
  | answering (address : Net.Ip) (code : Option UInt8) (delay : Span)
  deriving DecidableEq, Repr

def Router.kindOf : Option UInt8 → ReplyKind
  | none => .timeExceeded
  | some code => .unreachable code

structure Path where
  routers : List Router
  /-- How long the client takes to echo what gets past the routers, if it ever does. -/
  echo : Option Span
  deriving DecidableEq, Repr

namespace Path

def router? (p : Path) (ttl : Nat) : Option Router := p.routers[ttl - 1]?

def reactions (p : Path) (flow : Flow) (info : TcpInfo) (ttl : Nat) :
    List (Span × (List UInt8 → Event)) :=
  match p.router? ttl with
  | some .silent => []
  | some (.answering address code delay) =>
      [(delay, .quoting flow info address (Router.kindOf code) 0)]
  | none =>
      match p.echo with
      | none => []
      | some delay => [(delay, .pong)]

def behaviour (p : Path) (src dst : Net.Socket) (timestamps : Bool) : Behaviour where
  localAddress := .ok src
  peerAddress := fun _ => .ok dst
  counters := ⟨0, 0, timestamps⟩
  write := fun ttl =>
    { reactions := p.reactions (Flow.between src dst) ⟨0, 0, timestamps⟩ ttl }

/-- The hop at a TTL. A router has to answer before the timeout, an echo may come with it. -/
def hop (p : Path) (target : Net.Ip) (timeout : Span) (ttl : UInt8) : Hop :=
  match p.router? ttl.toNat with
  | some .silent => .timedOut ttl
  | some (.answering address code delay) =>
      if delay < timeout then .resolved ttl address delay (Router.kindOf code) else .timedOut ttl
  | none =>
      match p.echo with
      | none => .timedOut ttl
      | some delay =>
          if delay ≤ timeout then .resolved ttl target delay .destination else .timedOut ttl

def walkFrom (p : Path) (target : Net.Ip) (timeout : Span) (maxHops : UInt8) :
    (more : Nat) → UInt8 → List Hop
  | 0, ttl => [p.hop target timeout ttl]
  | more + 1, ttl =>
      let hop := p.hop target timeout ttl
      if hop.reaches target || maxHops ≤ ttl then [hop]
      else hop :: walkFrom p target timeout maxHops more (ttl + 1)

def walk (p : Path) (target : Net.Ip) (timeout : Span) (firstTtl maxHops : UInt8) : List Hop :=
  let first := if firstTtl = 0 then 1 else firstTtl
  p.walkFrom target timeout maxHops (255 - first.toNat) first

end Path

end InbandTrace
