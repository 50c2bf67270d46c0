import InbandTrace.Proofs.Engine.Lapse

namespace InbandTrace

namespace Agenda

def later (d : Span) (agenda : Agenda) : Agenda := agenda.map fun x => (x.1 + d, x.2)

theorem later_schedule (d : Span) (due : Instant) (e : Event) (agenda : Agenda) :
    later d (schedule due e agenda) = schedule (due + d) e (later d agenda) := by
  induction agenda with
  | nil => rfl
  | cons x rest ih =>
      obtain ⟨due', e'⟩ := x
      simp only [schedule, later, List.map_cons, Nat.add_le_add_iff_right] at ih ⊢
      split
      · rw [List.map_cons, ih]
      · rfl

theorem later_scheduleAll (d : Span) (start : Instant) (events : List (Span × Event))
    (agenda : Agenda) :
    later d (scheduleAll start events agenda) =
      scheduleAll (start + d) events (later d agenda) := by
  induction events generalizing agenda with
  | nil => rfl
  | cons e rest ih =>
      simp only [scheduleAll, List.foldl_cons] at ih ⊢
      rw [ih, later_schedule, Nat.add_right_comm]

theorem foldl_min_later (d : Span) (agenda : Agenda) (n : Instant) :
    (later d agenda).foldl (fun n e => min n e.1) (n + d) =
      agenda.foldl (fun n e => min n e.1) n + d := by
  induction agenda generalizing n with
  | nil => rfl
  | cons x rest ih =>
      simp only [later, List.map_cons, List.foldl_cons] at ih ⊢
      rw [← ih, Nat.add_min_add_right]

theorem any_due_later (d : Span) (agenda : Agenda) (now : Instant) :
    (later d agenda).any (fun e => decide (e.1 ≤ now + d)) =
      agenda.any fun e => decide (e.1 ≤ now) := by
  simp only [later, List.any_map, Function.comp_def, Nat.add_le_add_iff_right]

end Agenda

def Ping.later (d : Span) (p : Ping) : Ping := { p with sentAt := p.sentAt + d }

namespace Connection

def later (d : Span) (c : Connection) : Connection :=
  { c with
    openedAt := c.openedAt + d
    agenda := c.agenda.later d
    pings := c.pings.map (Ping.later d) }

/-- The first connection is where the second was some time ago, whatever has been captured. -/
structure Twin (Q : Event → Prop) (d : Span) (c c' : Connection) : Prop where
  same : { c with captures := [] } = { c'.later d with captures := [] }
  brings : c'.behaviour.Brings Q
  awaits : ∀ x ∈ c'.agenda, Q x.2

theorem twin_start {Q : Event → Prop} {b : Behaviour} (hb : b.Brings Q) (d : Span)
    (now : Instant) (cancelled : Bool) :
    Twin Q d { start b (now + d) with cancelled := cancelled }
      { start b now with cancelled := cancelled } := by
  refine ⟨?_, hb, ?_⟩
  · have hagenda := Agenda.later_scheduleAll d now b.script []
    simp only [later, start, hagenda]
    rfl
  · intro x hx
    rcases Agenda.mem_scheduleAll.mp hx with ⟨y, hy, rfl⟩ | hnone
    · exact hb.1 y hy
    · cases hnone

namespace Twin

variable {Q : Event → Prop} {d : Span} {c c' : Connection}

theorem behaviour (h : c.Twin Q d c') : c.behaviour = c'.behaviour :=
  (congrArg Connection.behaviour h.same :)

theorem agenda (h : c.Twin Q d c') : c.agenda = c'.agenda.later d :=
  (congrArg Connection.agenda h.same :)

theorem inbox (h : c.Twin Q d c') : c.inbox = c'.inbox := (congrArg Connection.inbox h.same :)

theorem counters (h : c.Twin Q d c') : c.counters = c'.counters :=
  (congrArg Connection.counters h.same :)

theorem fault (h : c.Twin Q d c') : c.fault = c'.fault := (congrArg Connection.fault h.same :)

theorem cancelled (h : c.Twin Q d c') : c.cancelled = c'.cancelled :=
  (congrArg Connection.cancelled h.same :)

theorem ttl (h : c.Twin Q d c') : c.ttl = c'.ttl := (congrArg Connection.ttl h.same :)

theorem ttlCalls (h : c.Twin Q d c') : c.ttlCalls = c'.ttlCalls :=
  (congrArg Connection.ttlCalls h.same :)

theorem queries (h : c.Twin Q d c') : c.queries = c'.queries :=
  (congrArg Connection.queries h.same :)

theorem pings (h : c.Twin Q d c') : c.pings = c'.pings.map (Ping.later d) :=
  (congrArg Connection.pings h.same :)

theorem isDue (h : c.Twin Q d c') (now : Instant) : c.isDue (now + d) = c'.isDue now := by
  rw [Connection.isDue, h.agenda]
  exact Agenda.any_due_later d _ now

theorem earliest (h : c.Twin Q d c') (n : Instant) :
    c.agenda.foldl (fun n e => min n e.1) (n + d) =
      c'.agenda.foldl (fun n e => min n e.1) n + d := by
  rw [h.agenda]
  exact Agenda.foldl_min_later d _ n

theorem noted (h : c.Twin Q d c') (at_ at' : Instant) (x x' : Capture) :
    (c.note at_ x).Twin Q d (c'.note at' x') := ⟨h.same, h.brings, h.awaits⟩

theorem withAgenda (h : c.Twin Q d c') {agenda : Agenda} (ha : ∀ x ∈ agenda, Q x.2) :
    Twin Q d { c with agenda := agenda.later d } { c' with agenda := agenda } :=
  ⟨congrArg (fun x : Connection => { x with agenda := agenda.later d }) h.same, h.brings, ha⟩

theorem withInbox (h : c.Twin Q d c') (inbox : List Signal) :
    Twin Q d { c with inbox := inbox } { c' with inbox := inbox } :=
  ⟨congrArg (fun x : Connection => { x with inbox := inbox }) h.same, h.brings, h.awaits⟩

theorem withCounters (h : c.Twin Q d c') (counters : TcpInfo) :
    Twin Q d { c with counters := counters } { c' with counters := counters } :=
  ⟨congrArg (fun x : Connection => { x with counters := counters }) h.same, h.brings, h.awaits⟩

theorem withFault (h : c.Twin Q d c') (fault : Option Fault) :
    Twin Q d { c with fault := fault } { c' with fault := fault } :=
  ⟨congrArg (fun x : Connection => { x with fault := fault }) h.same, h.brings, h.awaits⟩

theorem calledOff (h : c.Twin Q d c') :
    Twin Q d { c with cancelled := true } { c' with cancelled := true } :=
  ⟨congrArg (fun x : Connection => { x with cancelled := true }) h.same, h.brings, h.awaits⟩

theorem query (h : c.Twin Q d c') : c.query.1 = c'.query.1 ∧ c.query.2.Twin Q d c'.query.2 := by
  have hanswer : c.query.1 = c'.query.1 := by
    simp only [Connection.query, h.behaviour, h.fault, h.queries, h.counters]
  refine ⟨hanswer, ?_, h.brings, h.awaits⟩
  have hsame := congrArg (fun x : Connection =>
    { x with counters := x.behaviour.counted x.queries x.counters, queries := x.queries + 1 })
    h.same
  exact hsame

theorem setTtl (h : c.Twin Q d c') (v : Nat) :
    (c.setTtl v).1 = (c'.setTtl v).1 ∧ (c.setTtl v).2.Twin Q d (c'.setTtl v).2 := by
  have hanswer : c.behaviour.setTtl c.ttlCalls v = c'.behaviour.setTtl c'.ttlCalls v := by
    rw [h.behaviour, h.ttlCalls]
  cases hset : c'.behaviour.setTtl c'.ttlCalls v with
  | some fault =>
      rw [hset] at hanswer
      simp only [Connection.setTtl, hset, hanswer]
      have hsame := congrArg (fun x : Connection => { x with ttlCalls := x.ttlCalls + 1 }) h.same
      exact ⟨trivial, hsame, h.brings, h.awaits⟩
  | none =>
      rw [hset] at hanswer
      simp only [Connection.setTtl, hset, hanswer]
      have hsame := congrArg (fun x : Connection =>
        { x with
          ttl := v
          ttlCalls := x.ttlCalls + 1
          ttlSettings := x.ttlSettings + 1 }) h.same
      exact ⟨trivial, hsame, h.brings, h.awaits⟩

theorem ping (h : c.Twin Q d c') (now : Instant) (payload : List UInt8) :
    (c.ping (now + d) payload).Twin Q d (c'.ping now payload) := by
  refine ⟨?_, h.brings, ?_⟩
  · have hagenda := Agenda.later_scheduleAll d now
      ((c'.behaviour.write c'.ttl).reactions.map fun r => (r.1, r.2 payload)) c'.agenda
    have hsame := congrArg (fun x : Connection => x.ping (now + d) payload) h.same
    simp only [later]
    rw [show (c'.ping now payload).agenda.later d = _ from hagenda]
    exact hsame
  · intro x hx
    rcases Agenda.mem_scheduleAll.mp hx with ⟨y, hy, rfl⟩ | hold
    · obtain ⟨r, hr, rfl⟩ := List.mem_map.mp hy
      exact h.brings.2 _ r hr _
    · exact h.awaits x hold

end Twin

end Connection

end InbandTrace
