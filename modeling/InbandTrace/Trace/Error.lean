import InbandTrace.Fault
import InbandTrace.Probe.Token
import InbandTrace.Session.Basic

namespace InbandTrace

inductive TraceError where
  | config (reason : String)
  | connectionClosed (hops : TraceResult)
  | cancelled (hops : TraceResult)
  | tokenCollision (token : Token)
  | state (error : SessionError)
  | fault (fault : Fault)
  deriving DecidableEq, Repr

namespace TraceError

def partial? : TraceError → Option TraceResult
  | .connectionClosed r => some r
  | .cancelled r => some r
  | _ => none

def message : TraceError → String
  | .config reason => "configuration error: " ++ reason
  | .connectionClosed r => "connection closed after " ++ Text.number r.hops.length ++ " hops"
  | .cancelled r => "trace cancelled after " ++ Text.number r.hops.length ++ " hops"
  | .tokenCollision token =>
      "probe token " ++ String.ofList token.text ++ " is already pending"
  | .state e => "session state: " ++ e.message
  | .fault f => f.text

end TraceError

end InbandTrace
