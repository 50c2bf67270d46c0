import InbandTrace.Proofs.Trace.Beside
import InbandTrace.Proofs.Trace.Provenance

namespace InbandTrace

theorem Payload.ttl_of_bytes {s s' : UInt16} {ttl ttl' : UInt8} (h : bytes s ttl = bytes s' ttl') :
    ttl = ttl' := by
  simp only [bytes, header, magic, List.cons_append, List.nil_append, List.cons.injEq, true_and] at h
  exact h.2.2.1

namespace World

variable {w : World} {phase : Phase} {es : Agenda} {turn : Turn}

theorem Course.flight (hc : Course w phase es turn) {flight : Flight}
    (h : turn.1.flight? = some flight) :
    phase.flight? = some flight ∨ ∃ sweep giveUp wake next d,
      phase = .settling sweep giveUp wake ∧ turn.1 = .writing next d ∧ d.flight = flight := by
  cases hc with
  | @launched es es' w' w'' sweep giveUp wake s m r d hw hr hset hw' hd =>
      cases h
      exact .inr ⟨sweep, giveUp, wake, _, d, rfl, rfl, rfl⟩
  | landed hw hset => exact .inl h
  | waited hw htime => exact .inl h
  | opened hw hs hstart => cases h
  | refused id target hw ha => cases h
  | cancelled => cases h
  | paused hw htime => cases h
  | collided hw hr => simp at h
  | unsent hw hr hw' => cases h
  | crashed hw => cases h
  | calledOff => cases h
  | replied hbox httl => simp at h
  | evicted httl => simp at h
  | echoed hw hpong httl => simp at h
  | late hw hlate httl => simp at h
  | hungUp hw => cases h
  | rested => cases h

theorem Course.pinged {sweep next : Sweep} {giveUp wake : Instant} {d : Departure}
    (hc : Course w (.settling sweep giveUp wake) es turn) (h : turn.1 = .writing next d) :
    (∃ serial, d.flight.payload = Payload.bytes serial d.flight.ttl) ∧
      turn.2.connection.pings = d.flight.ping :: w.connection.pings := by
  cases hc with
  | launched hw hr hset hw' hd =>
      cases h
      refine ⟨⟨_, by rw [hd]⟩, ?_⟩
      rw [hw.pings_ping hset hw', Flight.ping, hd]
  | cancelled => cases h
  | paused hw htime => cases h
  | collided hw hr =>
      have hflight := congrArg Phase.flight? h
      rw [flight?_proceed] at hflight
      cases hflight
  | unsent hw hr hw' => cases h

end World

def Ping.Marked (p : Ping) : Prop :=
  ∃ serial ttl, p.payload = Payload.bytes serial ttl ∧ p.ttl = ttl.toNat

structure Phase.Pinged (phase : Phase) (c : Connection) : Prop where
  marked : ∀ p ∈ c.pings, p.Marked
  pending : ∀ flight, phase.flight? = some flight → flight.ping ∈ c.pings

theorem World.Course.keepsPinged {w : World} {phase : Phase} {es : Agenda} {turn : Turn}
    (hc : Course w phase es turn) (h : phase.Pinged w.connection) :
    turn.1.Pinged turn.2.connection := by
  have hpings : ∀ p ∈ w.connection.pings, p ∈ turn.2.connection.pings := by
    intro p hp
    rcases hc.writes with hsame | ⟨sweep, giveUp, wake, next, d, -, -, -, -, hping⟩
    · exact hsame ▸ hp
    · rw [hping]
      exact List.mem_cons_of_mem _ hp
  constructor
  · intro p hp
    rcases hc.writes with hsame | ⟨sweep, giveUp, wake, next, d, hphase, hwriting, -⟩
    · exact h.marked p (hsame ▸ hp)
    · subst hphase
      obtain ⟨⟨serial, hpayload⟩, hping⟩ := hc.pinged hwriting
      rw [hping] at hp
      rcases List.mem_cons.mp hp with rfl | hold
      · exact ⟨serial, d.flight.ttl, hpayload, rfl⟩
      · exact h.marked p hold
  · intro flight hflight
    rcases hc.flight hflight with hold | ⟨sweep, giveUp, wake, next, d, rfl, hwriting, rfl⟩
    · exact hpings _ (h.pending flight hold)
    · obtain ⟨-, hping⟩ := hc.pinged hwriting
      rw [hping]
      exact List.mem_cons_self

theorem Fleet.ping_eq_of_reaches {e : Engine} {now : Instant} {setups : List Trace.Setup}
    (he : e.registry.Sound) {f : Fleet}
    (hr : Relation.ReflTransGen Step (e.fleet now setups) f) {i : Nat} {t : Trace}
    (ht : f.traces[i]? = some t) {flight : Flight} (hflight : t.phase.flight? = some flight) :
    flight.ping ∈ t.connection.pings ∧
      ∀ p ∈ t.connection.pings, p.payload = flight.payload → p = flight.ping := by
  have hstart : (e.fleet now setups).Each fun _ now e' t =>
      t.OnCourse e.config t.connection.behaviour now e' ∧
        (∃ tried, World.Wired t.connection.behaviour tried (t.phase, t.world now e')) ∧
          t.phase.Pinged t.connection := by
    refine each_fleet fun i s hs => ⟨.start s now he, ⟨[], Trace.wired_start s now e⟩, nofun, nofun⟩
  obtain ⟨-, ⟨tried, hwired⟩, hpinged⟩ := hstart.onCourse
    (fun i now e' t es hcourse ⟨⟨tried, hwired⟩, hpinged⟩ hc hnext => by
      obtain ⟨tried', hwired'⟩ := hc.wired hwired
      refine ⟨⟨tried', ?_⟩, hc.keepsPinged hpinged⟩
      rw [hnext.behaviour]
      exact ⟨hwired'.tuned, hwired'.rising, hwired'.stage, hwired'.covered⟩)
    (fun i j now e' t u es hne ⟨⟨tried, hwired⟩, hpinged⟩ _ _ _ _ =>
      ⟨⟨tried, hwired.tuned, hwired.rising, hwired.stage, hwired.covered⟩, hpinged⟩)
    (fun i now e' t m ⟨⟨tried, hwired⟩, hpinged⟩ _ _ =>
      ⟨⟨tried, hwired.tuned, hwired.rising, hwired.stage, hwired.covered⟩, hpinged⟩) hr i t ht
  have hown := hpinged.pending flight hflight
  refine ⟨hown, fun p hp hsame => Connection.ping_eq_of_ttl hwired.pings hp hown ?_⟩
  obtain ⟨serial, ttl, hpayload, httl⟩ := hpinged.marked p hp
  obtain ⟨serial', ttl', hpayload', httl'⟩ := hpinged.marked _ hown
  have hmark : Payload.bytes serial ttl = Payload.bytes serial' ttl' := by
    rw [← hpayload, ← hpayload']
    exact hsame
  rw [httl, httl', Payload.ttl_of_bytes hmark]

end InbandTrace
