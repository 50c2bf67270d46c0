import InbandTrace.Config
import InbandTrace.Connection.Basic
import InbandTrace.Log.Record
/-!
The engine that traces share, and the world as one of them sees it. Whatever happens to a connection
happens when the trace looks at it: all events that are due then, each as of the time it was due.
-/

namespace InbandTrace

structure Engine where
  config : Config
  wallClock : Instant → Timestamp
  registry : Registry := .empty
  stopped : Bool := false
  records : List TraceRecord := []

structure World where
  now : Instant
  engine : Engine
  connection : Connection

namespace World

def withRegistry (w : World) (r : Registry) : World :=
  { w with engine := { w.engine with registry := r } }

def note (w : World) (due : Instant) (capture : Capture) : World :=
  { w with connection := w.connection.note due capture }

def deliver (w : World) (s : Signal) : World :=
  { w with connection := { w.connection with inbox := w.connection.inbox ++ [s] } }

def setCounters (w : World) (counters : TcpInfo) : World :=
  { w with connection := { w.connection with counters := counters } }

def happen (w : World) (due : Instant) : Event → World
  | .packet data source =>
      let (outcome, r) := w.engine.registry.dispatch data source due
      (w.withRegistry r).note due (.dispatched outcome)
  | .pong payload => w.deliver (.pong payload)
  | .close => w.deliver .closed
  | .retransmitted change =>
      let counters := w.connection.counters
      w.setCounters
        { counters with retransmitted := Connection.shifted counters.retransmitted change }
  | .unacknowledged change =>
      let counters := w.connection.counters
      w.setCounters
        { counters with unacknowledged := Connection.shifted counters.unacknowledged change }
  | .statistics fault => { w with connection := { w.connection with fault := fault } }
  | .reap ahead =>
      let (count, r) := w.engine.registry.reap (due + ahead)
      (w.withRegistry r).note due (.reaped count)
  | .registry operation => w.withRegistry (w.engine.registry.apply operation).2
  | .cancel => { w with connection := { w.connection with cancelled := true } }
  | .shutdown => { w with engine := { w.engine with stopped := true } }

def settleAgenda : Agenda → World → World
  | [], w => { w with connection := { w.connection with agenda := [] } }
  | (due, e) :: rest, w =>
      if due ≤ w.now then settleAgenda rest (w.happen due e)
      else { w with connection := { w.connection with agenda := (due, e) :: rest } }

def catchUp (w : World) : World := settleAgenda w.connection.agenda w

def query (w : World) : Except Fault TcpInfo × World :=
  (w.connection.query.1, { w with connection := w.connection.query.2 })

def statistics (w : World) : Except Fault TcpInfo × World := w.catchUp.query

def setTtl (w : World) (ttl : Nat) : Option Fault × World :=
  ((w.connection.setTtl ttl).1, { w with connection := (w.connection.setTtl ttl).2 })

def ping (w : World) (payload : List UInt8) : World :=
  { w with connection := w.connection.ping w.now payload }

def forget (w : World) (token : Token) (mailbox : Nat) : World :=
  w.withRegistry ((w.engine.registry.release token).2.drop mailbox)

def receive (w : World) (mailbox : Nat) : Receipt × World :=
  ((w.engine.registry.receive mailbox).1, w.withRegistry (w.engine.registry.receive mailbox).2)

end World

end InbandTrace
