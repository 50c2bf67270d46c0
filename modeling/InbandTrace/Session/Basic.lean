import InbandTrace.Session.State
import InbandTrace.Probe.Hop
import InbandTrace.Time.Timestamp

namespace InbandTrace

structure Session where
  id : String
  target : Net.Ip
  firstTtl : UInt8
  maxHops : UInt8
  hops : List Hop
  state : SessionState
  startedAt : Timestamp
  deriving DecidableEq, Repr

namespace Session

/-- A new session; a sweep starts at TTL 1 or later. -/
def start (id : String) (target : Net.Ip) (firstTtl maxHops : UInt8) (now : Timestamp) :
    Session where
  id := id
  target := target
  firstTtl := if firstTtl = 0 then 1 else firstTtl
  maxHops := maxHops
  hops := []
  state := .idle
  startedAt := now

def transition (s : Session) (next : SessionState) : Except SessionError Session :=
  if s.state.allows next then .ok { s with state := next }
  else .error (.invalidTransition s.state next)

def begin (s : Session) : Except SessionError Session := s.transition (.probing s.firstTtl)

def awaited? (s : Session) : Option UInt8 :=
  match s.state with
  | .awaitingResponse ttl => some ttl
  | _ => none

def record (s : Session) (hop : Hop) : Except SessionError Session :=
  if s.awaited? = some hop.ttl then
    .ok { s with
      hops := s.hops ++ [hop]
      state := if hop.status = .timeout then .hopTimedOut hop.ttl else .hopRecorded hop.ttl }
  else .error (.unexpectedHop s.state hop.ttl)

def reached (s : Session) : Bool :=
  match s.hops.getLast? with
  | some hop => hop.reaches s.target
  | none => false

/-- The TTL whose hop was recorded last, while the session has not moved on. -/
def settled? (s : Session) : Option UInt8 :=
  match s.state with
  | .hopRecorded ttl => some ttl
  | .hopTimedOut ttl => some ttl
  | _ => none

def following (s : Session) (ttl : UInt8) : SessionState :=
  if s.reached || s.maxHops ≤ ttl then .completed else .probing (ttl + 1)

def advance (s : Session) : Except SessionError Session :=
  match s.settled? with
  | some ttl => s.transition (s.following ttl)
  | none => .error (.invalidTransition s.state .completed)

def abort (s : Session) : Except SessionError Session := s.transition .aborted

end Session

structure TraceResult where
  sessionId : String
  target : Net.Ip
  hops : List Hop
  completed : Bool
  reached : Bool
  startedAt : Timestamp
  endedAt : Timestamp
  deriving DecidableEq, Repr

def Session.freeze (s : Session) (now : Timestamp) : TraceResult where
  sessionId := s.id
  target := s.target
  hops := s.hops
  completed := s.state == .completed
  reached := s.reached
  startedAt := s.startedAt
  endedAt := now

end InbandTrace
