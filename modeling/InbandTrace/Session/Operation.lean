import InbandTrace.Session.Basic

namespace InbandTrace.Session

inductive Operation where
  | begin
  | transition (next : SessionState)
  | record (hop : Hop)
  | advance
  | abort
  deriving DecidableEq, Repr

def apply (s : Session) : Operation → Except SessionError Session
  | .begin => s.begin
  | .transition next => s.transition next
  | .record hop => s.record hop
  | .advance => s.advance
  | .abort => s.abort

def after (s : Session) (op : Operation) : Session := (s.apply op).toOption.getD s

def run (s : Session) (ops : List Operation) : Session := ops.foldl after s

end InbandTrace.Session
