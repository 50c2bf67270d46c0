import InbandTrace.Fault
import InbandTrace.Probe.Operation
import InbandTrace.Probe.Payload

namespace InbandTrace

inductive Event where
  | packet (data : Packet.Bytes) (source : Net.Ip)
  | pong (payload : List UInt8)
  | close
  | retransmitted (change : Int)
  | unacknowledged (change : Int)
  /-- The statistics fail from now on, or work again. -/
  | statistics (fault : Option Fault)
  /-- The registry is swept, with a clock that may run ahead. -/
  | reap (ahead : Span)
  | registry (operation : Registry.Operation)
  | cancel
  | shutdown
  deriving DecidableEq, Repr

structure Write where
  refusal : Option Fault := none
  /-- The time the write takes, if it does not end at once. A pause of no length still lets happen
  what is due. -/
  pause : Option Span := none
  /-- What the ping brings about, by the time after its start. -/
  reactions : List (Span × (List UInt8 → Event)) := []
  failure : Option Fault := none

def Write.takes (w : Write) : Span := w.pause.getD 0

structure Behaviour where
  localAddress : Except Fault Net.Socket
  /-- What the n-th call answers, counted from 0 as all calls are. -/
  peerAddress : Nat → Except Fault Net.Socket
  ttl : Nat := 64
  ttlFault : Option Fault := none
  /-- Why the n-th call that sets the TTL to this value fails. -/
  setTtl : (n ttl : Nat) → Option Fault := fun _ _ => none
  counters : TcpInfo := ⟨0, 0, false⟩
  /-- What the counters have become by the n-th call for statistics. -/
  counted : (n : Nat) → TcpInfo → TcpInfo := fun _ info => info
  statisticsFault : (n : Nat) → Option Fault := fun _ => none
  write : (ttl : Nat) → Write := fun _ => {}
  /-- Events by the time after the start. -/
  script : List (Span × Event) := []

end InbandTrace
