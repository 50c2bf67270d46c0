import InbandTrace.Json.Reader
import InbandTrace.Probe.Hop
import InbandTrace.Probe.Token
import InbandTrace.Time.Span

namespace InbandTrace

open Json

def Net.Ip.toJson (x : Net.Ip) : Value := .string x.text

def Net.Socket.toJson (x : Net.Socket) : Value := .string x.text

def HopStatus.name : HopStatus → String
  | .answered => "answered"
  | .timeout => "timeout"
  | .unreachable => "unreachable"

def HopStatus.toJson (s : HopStatus) : Value := Value.ofString s.name

def HopStatus.reader : Reader HopStatus :=
  Reader.enumeration
    [.bare "answered" .answered, .bare "timeout" .timeout, .bare "unreachable" .unreachable]

def ReplyKind.toJson : ReplyKind → Value
  | .timeExceeded => Value.ofString "TimeExceeded"
  | .unreachable code => .object [Value.member "Unreachable" (Value.ofNat code.toNat)]
  | .destination => Value.ofString "Destination"

def ReplyKind.reader : Reader ReplyKind :=
  Reader.enumeration
    [.bare "TimeExceeded" .timeExceeded,
      .holding "Unreachable" (Reader.uint8.map .unreachable),
      .bare "Destination" .destination]

namespace Hop

def toJson (h : Hop) : Value :=
  .object
    [Value.member "ttl" (Value.ofNat h.ttl.toNat),
      Value.member "responder" (Value.ofOption Net.Ip.toJson h.responder),
      Value.member "rtt_ms" (Value.ofOption (fun t => .number (.float (Span.toMillis t))) h.rtt),
      Value.member "status" h.status.toJson]

structure Parts where
  ttl : Option UInt8 := none
  responder : Option (Option Net.Ip) := none
  rtt : Option (Option Span) := none
  status : Option HopStatus := none

/-- Milliseconds that are too long for a span stop the reading. -/
def rttReader : Reader (Option Span) := fun s => do
  match ← Reader.optional Reader.float s with
  | (none, rest) => return (none, rest)
  | (some ms, rest) =>
      match Span.ofMillis? ms with
      | some t => return (some t, rest)
      | none => throw .overlong

def fields : List (Reader.Field Parts) :=
  [⟨"ttl", fun p => p.ttl.isSome, fun p => Reader.uint8.map fun x => { p with ttl := some x }⟩,
    ⟨"responder", fun p => p.responder.isSome,
      fun p => (Reader.optional Reader.ip).map fun x => { p with responder := some x }⟩,
    ⟨"rtt_ms", fun p => p.rtt.isSome, fun p => rttReader.map fun x => { p with rtt := some x }⟩,
    ⟨"status", fun p => p.status.isSome,
      fun p => HopStatus.reader.map fun x => { p with status := some x }⟩]

def Parts.finish (p : Parts) : Option Hop := do
  return ⟨← p.ttl, p.responder.getD none, ← p.rtt, ← p.status⟩

def reader : Reader Hop := (Reader.record fields {}).complete Parts.finish

end Hop

namespace Flow

def toJson (f : Flow) : Value :=
  .object [Value.member "src" f.src.toJson, Value.member "dst" f.dst.toJson]

structure Parts where
  src : Option Net.Socket := none
  dst : Option Net.Socket := none

def fields : List (Reader.Field Parts) :=
  [⟨"src", fun p => p.src.isSome, fun p => Reader.socket.map fun x => { p with src := some x }⟩,
    ⟨"dst", fun p => p.dst.isSome, fun p => Reader.socket.map fun x => { p with dst := some x }⟩]

def Parts.finish (p : Parts) : Option Flow := do return ⟨← p.src, ← p.dst⟩

def reader : Reader Flow := (Reader.record fields {}).complete Parts.finish

end Flow

namespace Token

def toJson (t : Token) : Value :=
  .object
    [Value.member "flow" t.flow.toJson, Value.member "ip_len" (Value.ofNat t.ipLength.toNat)]

structure Parts where
  flow : Option Flow := none
  ipLength : Option UInt16 := none

def fields : List (Reader.Field Parts) :=
  [⟨"flow", fun p => p.flow.isSome, fun p => Flow.reader.map fun x => { p with flow := some x }⟩,
    ⟨"ip_len", fun p => p.ipLength.isSome,
      fun p => Reader.uint16.map fun x => { p with ipLength := some x }⟩]

def Parts.finish (p : Parts) : Option Token := do return ⟨← p.flow, ← p.ipLength⟩

def reader : Reader Token := (Reader.record fields {}).complete Parts.finish

end Token

end InbandTrace
