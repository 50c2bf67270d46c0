import InbandTrace.Json.Session
import InbandTrace.Trace.Error

namespace InbandTrace

open Json

structure TraceRecord where
  result : TraceResult
  error : Option String
  deriving DecidableEq, Repr

def TraceRecord.toJson (r : TraceRecord) : Value :=
  .object <|
    [Value.member "type" (Value.ofString "0trace"),
      Value.member "uuid" (Value.ofString r.result.sessionId),
      Value.member "ip" r.result.target.toJson,
      Value.member "timestamp" (.string r.result.endedAt.logText),
      Value.member "started_at" (.string r.result.startedAt.logText),
      Value.member "hops" (.array (r.result.hops.map Hop.toJson)),
      Value.member "completed" (.bool r.result.completed),
      Value.member "reached" (.bool r.result.reached)]
    ++ Value.optionalMember "error" Value.ofString r.error

structure EchoRecord where
  ip : Net.Ip
  at_ : Timestamp
  message : Value
  deriving Repr

def EchoRecord.toJson (r : EchoRecord) : Value :=
  .object
    [Value.member "type" (Value.ofString "ws-final"),
      Value.member "ip" r.ip.toJson,
      Value.member "timestamp" (.string r.at_.logText),
      Value.member "message" r.message]

structure Report where
  error : Option String
  result : Option TraceResult
  deriving DecidableEq, Repr

def Report.ofOutcome : Except TraceError TraceResult → Report
  | .ok r => ⟨none, some r⟩
  | .error e => ⟨some e.message, e.partial?⟩

def Report.toJson (r : Report) : Value :=
  .object
    (Value.optionalMember "error" Value.ofString r.error
      ++ Value.optionalMember "result" TraceResult.toJson r.result)

end InbandTrace
