import InbandTrace.Connection.Behaviour
/-!
A connection under way. Events wait on an agenda, in order of time and, at one time, in the order in
which they were put there; pongs and closes that have arrived wait in an inbox to be read.
-/

namespace InbandTrace

inductive Signal where
  | pong (payload : List UInt8)
  | closed
  deriving DecidableEq, Repr

structure Ping where
  sentAt : Instant
  ttl : Nat
  payload : List UInt8
  deriving DecidableEq, Repr

inductive Capture where
  | dispatched (outcome : Dispatch)
  | reaped (count : Nat)
  deriving DecidableEq, Repr

abbrev Agenda := List (Instant × Event)

namespace Agenda

/-- Puts an event behind all that are due no later. -/
def schedule (due : Instant) (e : Event) : Agenda → Agenda
  | [] => [(due, e)]
  | (d, x) :: rest =>
      if d ≤ due then (d, x) :: schedule due e rest else (due, e) :: (d, x) :: rest

def scheduleAll (start : Instant) (events : List (Span × Event)) (agenda : Agenda) : Agenda :=
  events.foldl (fun a e => schedule (start + e.1) e.2 a) agenda

theorem length_schedule (due : Instant) (e : Event) (agenda : Agenda) :
    (schedule due e agenda).length = agenda.length + 1 := by
  induction agenda with
  | nil => rfl
  | cons x rest ih =>
      simp only [schedule]
      split <;> simp [ih]

theorem length_scheduleAll (start : Instant) (events : List (Span × Event)) (agenda : Agenda) :
    (scheduleAll start events agenda).length = agenda.length + events.length := by
  induction events generalizing agenda with
  | nil => rfl
  | cons e rest ih =>
      simp only [scheduleAll, List.foldl_cons, List.length_cons] at ih ⊢
      rw [ih, length_schedule]
      omega

end Agenda

structure Connection where
  behaviour : Behaviour
  openedAt : Instant
  agenda : Agenda
  inbox : List Signal := []
  counters : TcpInfo
  fault : Option Fault := none
  cancelled : Bool := false
  ttl : Nat
  /-- Calls that set the TTL, and those of them that succeeded. -/
  ttlCalls : Nat := 0
  ttlSettings : Nat := 0
  queries : Nat := 0
  /-- The latest first. -/
  pings : List Ping := []
  captures : List (Instant × Capture) := []

namespace Connection

def start (behaviour : Behaviour) (now : Instant) : Connection where
  behaviour := behaviour
  openedAt := now
  agenda := Agenda.scheduleAll now behaviour.script []
  counters := behaviour.counters
  ttl := behaviour.ttl

def setTtl (c : Connection) (ttl : Nat) : Option Fault × Connection :=
  match c.behaviour.setTtl c.ttlCalls ttl with
  | some fault => (some fault, { c with ttlCalls := c.ttlCalls + 1 })
  | none =>
      (none,
        { c with ttl := ttl, ttlCalls := c.ttlCalls + 1, ttlSettings := c.ttlSettings + 1 })

def query (c : Connection) : Except Fault TcpInfo × Connection :=
  let counters := c.behaviour.counted c.queries c.counters
  let answer := match c.fault.or (c.behaviour.statisticsFault c.queries) with
    | some fault => .error fault
    | none => .ok counters
  (answer, { c with counters := counters, queries := c.queries + 1 })

def shifted (counter : Nat) (change : Int) : Nat := (counter + change).toNat

def ping (c : Connection) (now : Instant) (payload : List UInt8) : Connection :=
  { c with
    pings := ⟨now, c.ttl, payload⟩ :: c.pings
    agenda := Agenda.scheduleAll now
      ((c.behaviour.write c.ttl).reactions.map fun r => (r.1, r.2 payload)) c.agenda }

def note (c : Connection) (at_ : Instant) (capture : Capture) : Connection :=
  { c with captures := (at_, capture) :: c.captures }

def isDue (c : Connection) (now : Instant) : Bool := c.agenda.any fun e => decide (e.1 ≤ now)

end Connection

end InbandTrace
