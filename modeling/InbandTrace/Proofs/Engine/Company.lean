import InbandTrace.Proofs.Connection.Delay
import InbandTrace.Proofs.Registry.Tenancy
import InbandTrace.Trace.Basic

namespace InbandTrace

/-- Nothing is done to what belongs to all traces, and no probe under certain flows is quoted. -/
def Event.Apart (others : Flow → Prop) : Event → Prop
  | .packet data source =>
      ∀ reply, Packet.Reply.ofDatagram data source = .ok reply → ¬ others reply.token.flow
  | .reap _ | .registry _ | .shutdown => False
  | _ => True

namespace Engine

def anew (e : Engine) (d : Span) : Engine where
  config := e.config
  wallClock := fun t => e.wallClock (t + d)

structure Like (e host : Engine) : Prop where
  config : e.config = host.config
  wallClock : e.wallClock = host.wallClock
  running : e.stopped = false

end Engine

/-- What a trace has around it: the engine when it starts, the time then, and the flows of
others. -/
structure Company where
  host : Engine
  delay : Span
  others : Flow → Prop

def Registry.Steady (d : Span) (R : Registry → Registry → Prop) : Prop :=
  ∀ r r' data source t, R r r' →
    R (r.dispatch data source (t + d)).2 (r'.dispatch data source t).2

theorem Registry.Twin.steady {flow : Flow} {d : Span} {n : Nat} {own : Option Flight} :
    Steady d (Twin flow d n own) := fun _ _ data source t h => h.dispatch data source t

namespace World

/-- A trace in company, and as it would be alone: the same, some time later. -/
structure Twin (x : Company) (R : Registry → Registry → Prop) (w w' : World) : Prop where
  now : w.now = w'.now + x.delay
  engine : w.engine.Like x.host
  engine' : w'.engine.Like (x.host.anew x.delay)
  connection : w.connection.Twin (Event.Apart x.others) x.delay w'.connection
  registry : R w.engine.registry w'.engine.registry

namespace Twin

variable {x : Company} {R R' : Registry → Registry → Prop} {w w' : World}

theorem civil (h : Twin x R w w') : w.civil = w'.civil := by
  rw [World.civil, World.civil, h.engine.wallClock, h.engine'.wallClock, h.now]
  rfl

theorem config (h : Twin x R w w') : w.engine.config = w'.engine.config :=
  h.engine.config.trans h.engine'.config.symm

theorem mono (h : Twin x R w w') (hr : R' w.engine.registry w'.engine.registry) :
    Twin x R' w w' := ⟨h.now, h.engine, h.engine', h.connection, hr⟩

theorem both {α : Type} {p p' : α × World} (h : p.1 = p'.1 ∧ Twin x R p.2 p'.2) :
    ∃ answer w w', p = (answer, w) ∧ p' = (answer, w') ∧ Twin x R w w' :=
  ⟨p.1, p.2, p'.2, rfl, Prod.ext h.1.symm rfl, h.2⟩

theorem withRegistry (h : Twin x R w w') {r r' : Registry} (hr : R' r r') :
    Twin x R' (w.withRegistry r) (w'.withRegistry r') :=
  ⟨h.now, ⟨h.engine.config, h.engine.wallClock, h.engine.running⟩,
    ⟨h.engine'.config, h.engine'.wallClock, h.engine'.running⟩, h.connection, hr⟩

theorem withConnection (h : Twin x R w w') {c c' : Connection}
    (hc : c.Twin (Event.Apart x.others) x.delay c') :
    Twin x R { w with connection := c } { w' with connection := c' } :=
  ⟨h.now, h.engine, h.engine', hc, h.registry⟩

theorem record (h : Twin x R w w') (record record' : TraceRecord) :
    Twin x R (w.record record) (w'.record record') :=
  ⟨h.now, ⟨h.engine.config, h.engine.wallClock, h.engine.running⟩,
    ⟨h.engine'.config, h.engine'.wallClock, h.engine'.running⟩, h.connection, h.registry⟩

theorem happen (h : Twin x R w w') (hr : Registry.Steady x.delay R) {e : Event}
    (he : e.Apart x.others) (due : Instant) :
    Twin x R (w.happen (due + x.delay) e) (w'.happen due e) := by
  have hcounters := h.connection.counters
  have hinbox := h.connection.inbox
  cases e with
  | packet data source =>
      have hreg := hr _ _ data source due h.registry
      exact (h.withRegistry hreg).withConnection (h.connection.noted ..)
  | pong payload =>
      simp only [World.happen, deliver, hinbox]
      exact h.withConnection (h.connection.withInbox _)
  | close =>
      simp only [World.happen, deliver, hinbox]
      exact h.withConnection (h.connection.withInbox _)
  | retransmitted change =>
      simp only [World.happen, setCounters, hcounters]
      exact h.withConnection (h.connection.withCounters _)
  | unacknowledged change =>
      simp only [World.happen, setCounters, hcounters]
      exact h.withConnection (h.connection.withCounters _)
  | statistics fault => exact h.withConnection (h.connection.withFault fault)
  | cancel => exact h.withConnection h.connection.calledOff
  | reap ahead => exact he.elim
  | registry operation => exact he.elim
  | shutdown => exact he.elim

theorem settleAgenda (h : Twin x R w w') (hr : Registry.Steady x.delay R) {agenda : Agenda}
    (ha : ∀ y ∈ agenda, y.2.Apart x.others) :
    Twin x R (World.settleAgenda (agenda.later x.delay) w) (World.settleAgenda agenda w') := by
  induction agenda generalizing w w' with
  | nil => exact h.withConnection (h.connection.withAgenda ha)
  | cons y rest ih =>
      obtain ⟨due, e⟩ := y
      have hdue : due + x.delay ≤ w.now ↔ due ≤ w'.now := by
        rw [h.now, Nat.add_le_add_iff_right]
      change Twin x R (World.settleAgenda ((due + x.delay, e) :: Agenda.later x.delay rest) w) _
      simp only [World.settleAgenda, hdue]
      split
      · exact ih (h.happen hr (ha _ List.mem_cons_self) due)
          fun y hy => ha y (List.mem_cons_of_mem _ hy)
      · exact h.withConnection (h.connection.withAgenda ha)

theorem catchUp (h : Twin x R w w') (hr : Registry.Steady x.delay R) :
    Twin x R w.catchUp w'.catchUp := by
  rw [World.catchUp, World.catchUp, h.connection.agenda]
  exact h.settleAgenda hr h.connection.awaits

theorem query (h : Twin x R w w') :
    w.query.1 = w'.query.1 ∧ Twin x R w.query.2 w'.query.2 :=
  ⟨h.connection.query.1, h.withConnection h.connection.query.2⟩

theorem statistics (h : Twin x R w w') (hr : Registry.Steady x.delay R) :
    w.statistics.1 = w'.statistics.1 ∧ Twin x R w.statistics.2 w'.statistics.2 :=
  (h.catchUp hr).query

theorem setTtl (h : Twin x R w w') (ttl : Nat) :
    (w.setTtl ttl).1 = (w'.setTtl ttl).1 ∧ Twin x R (w.setTtl ttl).2 (w'.setTtl ttl).2 :=
  ⟨(h.connection.setTtl ttl).1, h.withConnection (h.connection.setTtl ttl).2⟩

theorem ping (h : Twin x R w w') (payload : List UInt8) :
    Twin x R (w.ping payload) (w'.ping payload) := by
  rw [World.ping, World.ping, h.now]
  exact ⟨rfl, h.engine, h.engine', h.connection.ping w'.now payload, h.registry⟩

variable {flow : Flow} {n : Nat} {f : Flight}

theorem forget (h : Twin x (Registry.Twin flow x.delay n (some f)) w w') (m : Nat) :
    Twin x (Registry.Twin flow x.delay m none) (w.forget f.token n)
      (w'.forget f.token f.mailbox) := h.withRegistry (h.registry.leave m)

theorem receive (h : Twin x (Registry.Twin flow x.delay n (some f)) w w') :
    (w.receive n).1 = (w'.receive f.mailbox).1 ∧
      Twin x (Registry.Twin flow x.delay n (some f)) (w.receive n).2
        (w'.receive f.mailbox).2 :=
  ⟨h.registry.receive.1, h.withRegistry h.registry.receive.2⟩

end Twin

end World

end InbandTrace
