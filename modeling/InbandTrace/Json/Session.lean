import InbandTrace.Json.Hop
import InbandTrace.Session.Basic
import InbandTrace.Time.Parser

namespace InbandTrace

open Json

def Timestamp.toJson (t : Timestamp) : Value := .string t.rfc3339

def Timestamp.reader : Reader Timestamp := Reader.parsed Timestamp.ofText?

namespace SessionState

def withTtl (name : String) (ttl : UInt8) : Value :=
  .object [Value.member name (Value.ofNat ttl.toNat)]

def toJson : SessionState → Value
  | .idle => Value.ofString "Idle"
  | .probing t => withTtl "Probing" t
  | .awaitingResponse t => withTtl "AwaitingResponse" t
  | .hopRecorded t => withTtl "HopRecorded" t
  | .hopTimedOut t => withTtl "HopTimedOut" t
  | .completed => Value.ofString "Completed"
  | .aborted => Value.ofString "Aborted"

def reader : Reader SessionState :=
  Reader.enumeration
    [.bare "Idle" .idle,
      .holding "Probing" (Reader.uint8.map .probing),
      .holding "AwaitingResponse" (Reader.uint8.map .awaitingResponse),
      .holding "HopRecorded" (Reader.uint8.map .hopRecorded),
      .holding "HopTimedOut" (Reader.uint8.map .hopTimedOut),
      .bare "Completed" .completed,
      .bare "Aborted" .aborted]

end SessionState

namespace TraceResult

def toJson (r : TraceResult) : Value :=
  .object
    [Value.member "session_id" (Value.ofString r.sessionId),
      Value.member "target" r.target.toJson,
      Value.member "hops" (.array (r.hops.map Hop.toJson)),
      Value.member "completed" (.bool r.completed),
      Value.member "reached" (.bool r.reached),
      Value.member "started_at" r.startedAt.toJson,
      Value.member "ended_at" r.endedAt.toJson]

structure Parts where
  sessionId : Option String := none
  target : Option Net.Ip := none
  hops : Option (List Hop) := none
  completed : Option Bool := none
  reached : Option Bool := none
  startedAt : Option Timestamp := none
  endedAt : Option Timestamp := none

def fields : List (Reader.Field Parts) :=
  [⟨"session_id", fun p => p.sessionId.isSome,
      fun p => Reader.text.map fun x => { p with sessionId := some (String.ofList x) }⟩,
    ⟨"target", fun p => p.target.isSome,
      fun p => Reader.ip.map fun x => { p with target := some x }⟩,
    ⟨"hops", fun p => p.hops.isSome,
      fun p => (Reader.list Hop.reader).map fun x => { p with hops := some x }⟩,
    ⟨"completed", fun p => p.completed.isSome,
      fun p => Reader.bool.map fun x => { p with completed := some x }⟩,
    ⟨"reached", fun p => p.reached.isSome,
      fun p => Reader.bool.map fun x => { p with reached := some x }⟩,
    ⟨"started_at", fun p => p.startedAt.isSome,
      fun p => Timestamp.reader.map fun x => { p with startedAt := some x }⟩,
    ⟨"ended_at", fun p => p.endedAt.isSome,
      fun p => Timestamp.reader.map fun x => { p with endedAt := some x }⟩]

def Parts.finish (p : Parts) : Option TraceResult := do
  return ⟨← p.sessionId, ← p.target, ← p.hops, ← p.completed, ← p.reached, ← p.startedAt,
    ← p.endedAt⟩

def reader : Reader TraceResult := (Reader.record fields {}).complete Parts.finish

end TraceResult

end InbandTrace
