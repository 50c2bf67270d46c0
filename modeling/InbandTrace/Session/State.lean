import InbandTrace.Text.Digits

namespace InbandTrace

inductive SessionState where
  | idle
  | probing (ttl : UInt8)
  | awaitingResponse (ttl : UInt8)
  | hopRecorded (ttl : UInt8)
  | hopTimedOut (ttl : UInt8)
  | completed
  | aborted
  deriving DecidableEq, Repr

namespace SessionState

def isTerminal : SessionState → Bool
  | .completed | .aborted => true
  | _ => false

def ttl? : SessionState → Option UInt8
  | .probing t | .awaitingResponse t | .hopRecorded t | .hopTimedOut t => some t
  | _ => none

def allows : SessionState → SessionState → Bool
  | .completed, _ => false
  | .aborted, _ => false
  | _, .aborted => true
  | .idle, .probing _ => true
  | .probing a, .awaitingResponse b => a == b
  | .awaitingResponse a, .hopRecorded b => a == b
  | .awaitingResponse a, .hopTimedOut b => a == b
  | .hopRecorded a, .probing b => b.toNat == a.toNat + 1
  | .hopTimedOut a, .probing b => b.toNat == a.toNat + 1
  | .hopRecorded _, .completed => true
  | .hopTimedOut _, .completed => true
  | _, _ => false

theorem allows_terminal {s t : SessionState} (h : s.isTerminal) : s.allows t = false := by
  cases s <;> simp_all [isTerminal, allows]

def text : SessionState → String
  | .idle => "Idle"
  | .probing t => "Probing(" ++ Text.number t.toNat ++ ")"
  | .awaitingResponse t => "AwaitingResponse(" ++ Text.number t.toNat ++ ")"
  | .hopRecorded t => "HopRecorded(" ++ Text.number t.toNat ++ ")"
  | .hopTimedOut t => "HopTimedOut(" ++ Text.number t.toNat ++ ")"
  | .completed => "Completed"
  | .aborted => "Aborted"

end SessionState

inductive SessionError where
  | invalidTransition (source target : SessionState)
  | unexpectedHop (state : SessionState) (ttl : UInt8)
  deriving DecidableEq, Repr

def SessionError.message : SessionError → String
  | .invalidTransition source target =>
      "invalid session transition " ++ source.text ++ " -> " ++ target.text
  | .unexpectedHop state ttl =>
      "hop for TTL " ++ Text.number ttl.toNat ++ " recorded while in state " ++ state.text

end InbandTrace
