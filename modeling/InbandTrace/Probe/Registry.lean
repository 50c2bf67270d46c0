import InbandTrace.Probe.Hop
import InbandTrace.Probe.Token
/-!
Probes under way. An entry is made before a probe leaves and taken out by the reply that names its
token, by its owner, or by the reaper. The hop of a resolved probe waits in a mailbox, which only
the registration that opened it reads; mailbox `n` belongs to registration number `n`, and is there
for as long as somebody may read it.
-/

namespace InbandTrace

inductive Mailbox where
  | waiting
  | holding (hop : Hop)
  /-- The hop has been read, or none can come any more. -/
  | closed
  deriving DecidableEq, Repr

structure Entry where
  token : Token
  ttl : UInt8
  sentAt : Instant
  deadline : Instant
  mailbox : Nat
  deriving DecidableEq, Repr

structure Registry where
  /-- At most one for each token. -/
  entries : List Entry
  /-- By the number of the registration. -/
  mailboxes : List (Nat × Mailbox)
  registrations : Nat
  deriving DecidableEq, Repr

inductive Receipt where
  | empty
  | closed
  | hop (hop : Hop)
  deriving DecidableEq, Repr

namespace Registry

def empty : Registry := ⟨[], [], 0⟩

instance : Inhabited Registry := ⟨empty⟩

def size (r : Registry) : Nat := r.entries.length

def find? (r : Registry) (token : Token) : Option Entry :=
  r.entries.find? fun e => e.token == token

def contains (r : Registry) (token : Token) : Bool := (r.find? token).isSome

def mailbox? (r : Registry) (n : Nat) : Option Mailbox := r.mailboxes.lookup n

def setMailbox (r : Registry) (n : Nat) (m : Mailbox) : Registry :=
  { r with mailboxes := r.mailboxes.map fun b => if b.1 = n then (n, m) else b }

def register (r : Registry) (token : Token) (ttl : UInt8) (sentAt deadline : Instant) :
    Option (Nat × Registry) :=
  if r.contains token then none
  else
    let n := r.registrations
    some (n, ⟨r.entries ++ [⟨token, ttl, sentAt, deadline, n⟩], r.mailboxes ++ [(n, .waiting)],
      n + 1⟩)

def close (r : Registry) (n : Nat) : Registry :=
  match r.mailbox? n with
  | some .waiting => r.setMailbox n .closed
  | _ => r

def erase (r : Registry) (token : Token) : Registry :=
  { r with entries := r.entries.filter fun e => e.token != token }

def deliver (r : Registry) (n : Nat) (hop : Hop) : Bool × Registry :=
  match r.mailbox? n with
  | some .waiting => (true, r.setMailbox n (.holding hop))
  | _ => (false, r)

/-- Takes out the entry of a token and delivers its hop. The answer tells whether somebody reads
it. -/
def resolve (r : Registry) (token : Token) (responder : Net.Ip) (kind : ReplyKind)
    (receivedAt : Instant) : Bool × Registry :=
  match r.find? token with
  | none => (false, r)
  | some e =>
      (r.erase token).deliver e.mailbox (.resolved e.ttl responder (receivedAt - e.sentAt) kind)

def restamp (r : Registry) (token : Token) (sentAt deadline : Instant) : Bool × Registry :=
  (r.contains token,
    { r with entries := r.entries.map fun e =>
        if e.token = token then { e with sentAt := sentAt, deadline := deadline } else e })

def release (r : Registry) (token : Token) : Bool × Registry :=
  match r.find? token with
  | none => (false, r)
  | some e => (true, (r.erase token).close e.mailbox)

def live (r : Registry) (now : Instant) (e : Entry) : Bool :=
  now < e.deadline && (r.mailbox? e.mailbox).isSome

def reap (r : Registry) (now : Instant) : Nat × Registry :=
  let dead := r.entries.filter fun e => !r.live now e
  let kept := { r with entries := r.entries.filter (r.live now) }
  (dead.length, dead.foldl (fun s e => s.close e.mailbox) kept)

def receive (r : Registry) (n : Nat) : Receipt × Registry :=
  match r.mailbox? n with
  | some .waiting => (.empty, r)
  | some (.holding hop) => (.hop hop, r.setMailbox n .closed)
  | _ => (.closed, r)

def drop (r : Registry) (n : Nat) : Registry :=
  { r with mailboxes := r.mailboxes.filter fun b => b.1 != n }

theorem register_eq_none_iff {r : Registry} {token : Token} {ttl : UInt8} {s d : Instant} :
    r.register token ttl s d = none ↔ r.contains token := by
  unfold register
  split <;> simp_all

theorem resolve_of_not_contains {r : Registry} {token : Token} {ip : Net.Ip} {k : ReplyKind}
    {t : Instant} (h : r.contains token = false) : r.resolve token ip k t = (false, r) := by
  simp [contains] at h
  simp [resolve, h]

end Registry

end InbandTrace
