import InbandTrace.Packet.Reply
import InbandTrace.Probe.Registry

namespace InbandTrace

inductive Dispatch where
  | delivered (token : Token)
  | unmatched (token : Token)
  | malformed (error : Packet.Error)
  deriving DecidableEq, Repr

def Registry.dispatch (r : Registry) (data : Packet.Bytes) (source : Net.Ip)
    (receivedAt : Instant) : Dispatch × Registry :=
  match Packet.Reply.ofDatagram data source with
  | .error e => (.malformed e, r)
  | .ok reply =>
      let (taken, r) := r.resolve reply.token reply.responder reply.kind receivedAt
      (if taken then .delivered reply.token else .unmatched reply.token, r)

theorem Registry.dispatch_malformed {r : Registry} {data : Packet.Bytes} {source : Net.Ip}
    {t : Instant} {e : Packet.Error} (h : Packet.Reply.ofDatagram data source = .error e) :
    r.dispatch data source t = (.malformed e, r) := by
  simp [Registry.dispatch, h]

end InbandTrace
