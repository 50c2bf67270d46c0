import InbandTrace.Net.Address

namespace InbandTrace

/-- Nanoseconds since the start of the clock. -/
abbrev Instant := Nat

/-- A length of time in nanoseconds. -/
abbrev Span := Nat

inductive ReplyKind where
  | timeExceeded
  | unreachable (code : UInt8)
  | destination
  deriving DecidableEq, Repr

inductive HopStatus where
  | answered
  | timeout
  | unreachable
  deriving DecidableEq, Repr

def ReplyKind.status : ReplyKind → HopStatus
  | .timeExceeded => .answered
  | .unreachable _ => .unreachable
  | .destination => .answered

theorem ReplyKind.status_eq (kind : ReplyKind) : kind.status =
    if kind = .timeExceeded ∨ kind = .destination then .answered else .unreachable := by
  cases kind <;> rfl

structure Hop where
  ttl : UInt8
  responder : Option Net.Ip
  rtt : Option Span
  status : HopStatus
  deriving DecidableEq, Repr

def Hop.resolved (ttl : UInt8) (responder : Net.Ip) (rtt : Span) (kind : ReplyKind) : Hop :=
  ⟨ttl, some responder, some rtt, kind.status⟩

theorem Hop.resolved_eq (ttl : UInt8) (responder : Net.Ip) (rtt : Span) (kind : ReplyKind) :
    Hop.resolved ttl responder rtt kind = ⟨ttl, some responder, some rtt,
      if kind = .timeExceeded ∨ kind = .destination then .answered else .unreachable⟩ := by
  rw [resolved, kind.status_eq]

def Hop.timedOut (ttl : UInt8) : Hop := ⟨ttl, none, none, .timeout⟩

def Hop.reaches (h : Hop) (target : Net.Ip) : Bool := h.responder == some target

theorem Hop.reaches_iff {h : Hop} {target : Net.Ip} :
    h.reaches target ↔ h.responder = some target := by
  simp [Hop.reaches]

def ReplyKind.text : ReplyKind → String
  | .timeExceeded => "TimeExceeded"
  | .unreachable code => "Unreachable(" ++ Text.number code.toNat ++ ")"
  | .destination => "Destination"

end InbandTrace
