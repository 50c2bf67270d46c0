import InbandTrace.Packet.Dispatch

namespace InbandTrace.Registry

inductive Operation where
  | register (token : Token) (ttl : UInt8) (sentAt deadline : Instant)
  | resolve (token : Token) (responder : Net.Ip) (kind : ReplyKind) (receivedAt : Instant)
  | restamp (token : Token) (sentAt deadline : Instant)
  | release (token : Token)
  | packet (data : Packet.Bytes) (source : Net.Ip) (receivedAt : Instant)
  | reap (now : Instant)
  | receive (mailbox : Nat)
  | drop (mailbox : Nat)
  deriving DecidableEq, Repr

inductive Answer where
  | registered (mailbox : Option Nat)
  | found (yes : Bool)
  | dispatched (outcome : Dispatch)
  | reaped (count : Nat)
  | received (receipt : Receipt)
  | dropped
  deriving DecidableEq, Repr

def apply (r : Registry) : Operation → Answer × Registry
  | .register token ttl sentAt deadline =>
      match r.register token ttl sentAt deadline with
      | none => (.registered none, r)
      | some (n, r) => (.registered (some n), r)
  | .resolve token responder kind receivedAt =>
      let (yes, r) := r.resolve token responder kind receivedAt
      (.found yes, r)
  | .restamp token sentAt deadline =>
      let (yes, r) := r.restamp token sentAt deadline
      (.found yes, r)
  | .release token =>
      let (yes, r) := r.release token
      (.found yes, r)
  | .packet data source receivedAt =>
      let (outcome, r) := r.dispatch data source receivedAt
      (.dispatched outcome, r)
  | .reap now =>
      let (count, r) := r.reap now
      (.reaped count, r)
  | .receive mailbox =>
      let (receipt, r) := r.receive mailbox
      (.received receipt, r)
  | .drop mailbox => (.dropped, r.drop mailbox)

def after (r : Registry) (ops : List Operation) : Registry :=
  ops.foldl (fun r op => (r.apply op).2) r

def answers (r : Registry) : List Operation → List Answer
  | [] => []
  | op :: rest => (r.apply op).1 :: (r.apply op).2.answers rest

theorem after_append (r : Registry) (xs ys : List Operation) :
    r.after (xs ++ ys) = (r.after xs).after ys := by
  simp [after]

end InbandTrace.Registry
