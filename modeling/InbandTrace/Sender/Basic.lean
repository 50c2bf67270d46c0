import InbandTrace.Engine
import InbandTrace.Trace.Error
/-!
The sender of probes on one connection. Each probe is a ping under a lowered TTL; it is registered
before it leaves, and the TTL is put back whether or not it could be written.
-/

namespace InbandTrace

structure Sender where
  flow : Flow
  overhead : Nat
  defaultTtl : Nat
  hopTimeout : Span
  /-- The serial number used last. -/
  serial : UInt16 := 0
  deriving DecidableEq, Repr

structure Flight where
  token : Token
  ttl : UInt8
  sentAt : Instant
  deadline : Instant
  payload : List UInt8
  retransmitted : Nat
  mailbox : Nat
  deriving DecidableEq, Repr

structure Departure where
  flight : Flight
  pauses : Bool
  done : Instant
  failure : Option Fault
  deriving DecidableEq, Repr

namespace Sender

def orFault {α : Type} : Except Fault α → Except TraceError α
  | .ok x => .ok x
  | .error fault => .error (.fault fault)

def flowOf (behaviour : Behaviour) : Except TraceError Flow := do
  let src ← orFault behaviour.localAddress
  let dst ← orFault (behaviour.peerAddress 0)
  let flow := Flow.between src dst
  match flow.dst.ip with
  | .v4 _ => return flow
  | .v6 _ =>
      throw <| .config <|
        "cannot trace " ++ String.ofList flow.dst.text ++ ": only IPv4 connections are supported"

def start (w : World) : Except TraceError Sender × World :=
  match flowOf w.connection.behaviour with
  | .error e => (.error e, w)
  | .ok flow =>
      match w.statistics with
      | (.error fault, w) => (.error (.fault fault), w)
      | (.ok info, w) =>
          match w.connection.behaviour.ttlFault with
          | some fault => (.error (.fault fault), w)
          | none =>
              (.ok ⟨flow, info.overhead, w.connection.ttl, w.engine.config.hopTimeout, 0⟩, w)

def token (s : Sender) : Token :=
  ⟨s.flow, (s.overhead + Payload.wireLength (Payload.length s.serial)).toUInt16⟩

def attempts : Nat := 4

/-- Takes the next serial number whose token is not pending and registers it. The last token tried
is given up when all are. -/
def reserve (ttl : UInt8) (now : Instant) :
    (more : Nat) → Sender → Registry → Sender × Except Token (Nat × Registry)
  | more, s, r =>
      let s := { s with serial := s.serial + 1 }
      match r.register s.token ttl now (now + s.hopTimeout), more with
      | some reserved, _ => (s, .ok reserved)
      | none, 0 => (s, .error s.token)
      | none, more + 1 => reserve ttl now more s r

def restore (s : Sender) (w : World) : Option Fault × World := w.setTtl s.defaultTtl

def abandon (s : Sender) (w : World) (mailbox : Nat) : World :=
  (s.restore w).2.forget s.token mailbox

def transmit (s : Sender) (w : World) (ttl : UInt8) (retransmitted mailbox : Nat) :
    Except Fault Departure × World :=
  match w.setTtl ttl.toNat with
  | (some fault, w) => (.error fault, w)
  | (none, w) =>
      let deadline := w.now + s.hopTimeout
      let w := w.withRegistry (w.engine.registry.restamp s.token w.now deadline).2
      let w := w.catchUp
      let write := w.connection.behaviour.write w.connection.ttl
      match write.refusal with
      | some fault => (.error fault, w)
      | none =>
          let payload := Payload.bytes s.serial ttl
          (.ok ⟨⟨s.token, ttl, w.now, deadline, payload, retransmitted, mailbox⟩,
              write.pause.isSome, w.now + write.takes, write.failure⟩,
            w.ping payload)

def launch (s : Sender) (w : World) (ttl : UInt8) :
    Except TraceError Departure × Sender × World :=
  let (info, w) := w.statistics
  let retransmitted := match info with
    | .ok info => info.retransmitted
    | .error _ => 0
  match s.reserve ttl w.now (attempts - 1) w.engine.registry with
  | (s, .error token) => (.error (.tokenCollision token), s, w)
  | (s, .ok (mailbox, r)) =>
      match s.transmit (w.withRegistry r) ttl retransmitted mailbox with
      | (.ok departure, w) => (.ok departure, s, w)
      | (.error fault, w) => (.error (.fault fault), s, s.abandon w mailbox)

/-- Ends the write of a probe and puts the TTL back. What is due at the end of a pause
happens before the write ends. -/
def land (s : Sender) (w : World) (d : Departure) : Except Fault Flight × World :=
  let w := if d.pauses then w.catchUp else w
  let (fault, w) := s.restore w
  match d.failure, fault with
  | none, none => (.ok d.flight, w)
  | some fault, _ => (.error fault, w.forget d.flight.token d.flight.mailbox)
  | none, some fault => (.error fault, w.forget d.flight.token d.flight.mailbox)

def send (s : Sender) (w : World) (ttl : UInt8) : Except TraceError Flight × Sender × World :=
  match s.launch w ttl with
  | (.error e, s, w) => (.error e, s, w)
  | (.ok d, s, w) =>
      match s.land { w with now := d.done } d with
      | (.ok flight, w) => (.ok flight, s, w)
      | (.error fault, w) => (.error (.fault fault), s, w)

end Sender

end InbandTrace
