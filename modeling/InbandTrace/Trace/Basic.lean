import InbandTrace.Sender.Basic
import InbandTrace.Sender.Settle
/-!
One trace: a sweep of probes over a connection that belongs to it alone until the trace is over. It
goes on in small steps, none of which takes time; between them it waits for what `ready` tells.
-/

namespace InbandTrace

structure Sweep where
  session : Session
  sender : Sender
  ttl : UInt8

inductive Phase where
  | opening
  /-- Waits for the peer to acknowledge what was sent, and looks again at the time `wake`. -/
  | settling (sweep : Sweep) (giveUp wake : Instant)
  | writing (sweep : Sweep) (departure : Departure)
  | awaiting (sweep : Sweep) (flight : Flight)
  | finished (outcome : Except TraceError TraceResult) (at_ : Instant)

structure Trace where
  id : String
  /-- The trace is called off on its own connection, and otherwise together with all others. -/
  independent : Bool := false
  connection : Connection
  phase : Phase := .opening

inductive Abort where
  | closed
  | cancelled
  | failed (error : TraceError)

namespace Abort

def reason : Abort → String
  | .closed => "connection closed"
  | .cancelled => "cancelled"
  | .failed e => e.message

def error (hops : TraceResult) : Abort → TraceError
  | .closed => .connectionClosed hops
  | .cancelled => .cancelled hops
  | .failed e => e

end Abort

abbrev Turn := Phase × World

namespace World

def civil (w : World) : Timestamp := w.engine.wallClock w.now

def record (w : World) (r : TraceRecord) : World :=
  { w with engine := { w.engine with records := w.engine.records ++ [r] } }

def finish (w : World) (s : Session) (abort : Option Abort) : Turn :=
  let result := s.freeze w.civil
  let outcome := match abort with
    | none => .ok result
    | some a => .error (a.error result)
  (.finished outcome w.now, w.record ⟨result, abort.map Abort.reason⟩)

def giveUp (w : World) (s : Session) (abort : Abort) : Turn :=
  if s.state.isTerminal then w.finish s (some abort)
  else match s.abort with
    | .ok s => w.finish s (some abort)
    | .error e => (.finished (.error (.state e)) w.now, w)

def stateFault (w : World) (s : Session) (e : SessionError) : Turn :=
  w.giveUp s (.failed (.state e))

def settling (w : World) (sweep : Sweep) : Turn :=
  (.settling sweep (w.now + Settle.patience) w.now, w)

def conclude (w : World) (sweep : Sweep) (hop : Hop) : Turn :=
  match sweep.session.record hop with
  | .error e => w.stateFault sweep.session e
  | .ok s =>
      match s.advance with
      | .error e => w.stateFault s e
      | .ok s =>
          match s.state with
          | .probing next => w.settling { sweep with session := s, ttl := next }
          | _ => w.finish s none

def await (w : World) (sweep : Sweep) (next : Session → Turn) : Turn :=
  match sweep.session.transition (.awaitingResponse sweep.ttl) with
  | .error e => w.stateFault sweep.session e
  | .ok s => next s

/-- The target of a connection that cannot be traced. The peer has been asked for before if the
local address was known. -/
def fallbackTarget (w : World) : Net.Ip :=
  let b := w.connection.behaviour
  match b.peerAddress (if b.localAddress.toOption.isSome then 1 else 0) with
  | .ok peer => peer.ip.canonical
  | .error _ => .v4 .unspecified

def sessionTo (w : World) (id : String) (target : Net.Ip) : Session :=
  .start id target w.engine.config.firstTtl w.engine.config.maxHops w.civil

/-- Opens a sender and a session. A connection that cannot be used counts as closed. -/
def opening (w : World) (id : String) : Turn :=
  match Sender.start w with
  | (.error e, w) =>
      let abort := match e with
        | .fault _ => .closed
        | e => .failed e
      w.giveUp (w.sessionTo id w.fallbackTarget) abort
  | (.ok sender, w) =>
      let s := w.sessionTo id sender.flow.dst.ip
      match s.begin with
      | .error e => w.stateFault s e
      | .ok s => w.settling ⟨s, sender, s.firstTtl⟩

/-- Sends the probe of a TTL, up to the end of its write. When all tokens are taken nothing is sent,
and the hop counts as timed out. -/
def probe (w : World) (sweep : Sweep) : Turn :=
  match sweep.sender.launch w sweep.ttl with
  | (.ok departure, sender, w) => (.writing { sweep with sender := sender } departure, w)
  | (.error (.tokenCollision _), sender, w) =>
      w.await sweep fun s =>
        w.conclude { sweep with sender := sender, session := s } (.timedOut sweep.ttl)
  | (.error (.fault _), _, w) => w.giveUp sweep.session .closed
  | (.error e, _, w) => w.giveUp sweep.session (.failed e)

def probeWhenQuiet (w : World) (sweep : Sweep) (giveUp : Instant) : Turn :=
  let (info, w) := w.statistics
  if Settle.quiet info || giveUp ≤ w.now then w.probe sweep
  else (.settling sweep giveUp (w.now + Settle.interval), w)

def written (w : World) (sweep : Sweep) (d : Departure) : Turn :=
  match sweep.sender.land w d with
  | (.error _, w) => w.giveUp sweep.session .closed
  | (.ok flight, w) => w.await sweep fun s => (.awaiting { sweep with session := s } flight, w)

inductive Sign where
  | nothing
  | echoed
  | closed

/-- Reads signals up to the first that ends the wait. A pong with the payload of the probe proves
that it arrived, unless a segment has been retransmitted meanwhile. -/
def readSignals (flight : Flight) : List Signal → World → Sign × World
  | [], w => (.nothing, { w with connection := { w.connection with inbox := [] } })
  | .closed :: rest, w => (.closed, { w with connection := { w.connection with inbox := rest } })
  | .pong payload :: rest, w =>
      if payload = flight.payload then
        match w.query with
        | (.ok info, w) =>
            if info.retransmitted = flight.retransmitted then
              (.echoed, { w with connection := { w.connection with inbox := rest } })
            else readSignals flight rest w
        | (.error _, w) => readSignals flight rest w
      else readSignals flight rest w

def listen (w : World) (flight : Flight) : Sign × World :=
  readSignals flight w.catchUp.connection.inbox w.catchUp

def look (w : World) (sweep : Sweep) (flight : Flight) : Turn :=
  match w.receive flight.mailbox with
  | (.hop hop, w) => (w.forget flight.token flight.mailbox).conclude sweep hop
  | (.closed, w) => (w.forget flight.token flight.mailbox).conclude sweep (.timedOut flight.ttl)
  | (.empty, w) =>
      match w.listen flight with
      | (.echoed, w) =>
          (w.forget flight.token flight.mailbox).conclude sweep
            (.resolved flight.ttl sweep.session.target (w.now - flight.sentAt) .destination)
      | (.closed, w) => (w.forget flight.token flight.mailbox).giveUp sweep.session .closed
      | (.nothing, w) =>
          if flight.deadline ≤ w.now then
            (w.forget flight.token flight.mailbox).conclude sweep (.timedOut flight.ttl)
          else (.awaiting sweep flight, w)

end World

namespace Trace

def world (t : Trace) (now : Instant) (e : Engine) : World := ⟨now, e, t.connection⟩

def isCancelled (t : Trace) (e : Engine) : Bool :=
  if t.independent then t.connection.cancelled else e.stopped

/-- One step. A write is never interrupted; a wait ends when the trace is called off. -/
def turn (t : Trace) (now : Instant) (e : Engine) : Turn :=
  let w := t.world now e
  match t.phase with
  | .opening => w.opening t.id
  | .settling sweep giveUp _ =>
      if t.isCancelled e then w.giveUp sweep.session .cancelled
      else w.probeWhenQuiet sweep giveUp
  | .writing sweep departure => w.written sweep departure
  | .awaiting sweep flight =>
      if t.isCancelled e then (w.forget flight.token flight.mailbox).giveUp sweep.session .cancelled
      else w.look sweep flight
  | .finished outcome at_ => (.finished outcome at_, w)

def step (t : Trace) (now : Instant) (e : Engine) : Trace × Engine :=
  let (phase, w) := t.turn now e
  ({ t with phase := phase, connection := w.connection }, w.engine)

def ready (t : Trace) (now : Instant) (e : Engine) : Bool :=
  match t.phase with
  | .opening => true
  | .settling _ _ wake => t.isCancelled e || decide (wake ≤ now)
  | .writing _ departure => decide (departure.done ≤ now)
  | .awaiting _ flight =>
      t.isCancelled e || e.registry.mailbox? flight.mailbox != some .waiting
        || !t.connection.inbox.isEmpty || t.connection.isDue now || decide (flight.deadline ≤ now)
  | .finished .. => false

def wake? (t : Trace) : Option Instant :=
  match t.phase with
  | .opening => some 0
  | .settling _ _ wake => some wake
  | .writing _ departure => some departure.done
  | .awaiting _ flight =>
      some (t.connection.agenda.foldl (fun n e => min n e.1) flight.deadline)
  | .finished .. => none

def outcome? (t : Trace) : Option (Except TraceError TraceResult) :=
  match t.phase with
  | .finished outcome _ => some outcome
  | _ => none

def finishedAt? (t : Trace) : Option Instant :=
  match t.phase with
  | .finished _ at_ => some at_
  | _ => none

def rests (before after : Phase) (now : Instant) : Bool :=
  match before, after with
  | _, .settling _ _ wake => now < wake
  | .awaiting .., .awaiting .. => true
  | _, _ => false

/-- Steps that a trace on a connection takes at most: for each TTL the looks while it settles, the
end of a write and two looks for the hop, and one more for each event. -/
def stepsWithin (b : Behaviour) : Nat :=
  let reactions := (List.range 256).foldl (fun n ttl => n + (b.write ttl).reactions.length) 0
  256 * (Settle.patience / Settle.interval + 5) + b.script.length + reactions + 2

end Trace

end InbandTrace
