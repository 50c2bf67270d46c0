import InbandTrace.Options.Validation
import InbandTrace.Proofs.Path.Crossing
import InbandTrace.Proofs.Registry.Sole
import InbandTrace.Proofs.Trace.Custody
import InbandTrace.Proofs.Trace.Wire

namespace InbandTrace

/-- The TTLs of a sweep, as valid options bound them. -/
structure Config.Bounded (c : Config) : Prop where
  first : c.first ≤ c.maxHops
  limit : c.maxHops ≤ Options.hopLimit

theorem Config.one_le_first (c : Config) : 1 ≤ c.first.toNat := by
  unfold first
  split
  · decide
  · rename_i h
    exact Nat.pos_of_ne_zero fun hzero => h (UInt8.toNat_inj.mp hzero)

theorem Options.bounded_of_valid {o : Options} {c : Config} (h : o.invalid? = none)
    (hc : o.config? = some c) : c.Bounded := by
  simp only [invalid?, ite_eq_iff, reduceCtorEq, and_false, false_or] at h
  obtain ⟨-, -, -, -, hmax, hzero, hfirst, -⟩ := h
  simp only [config?, Option.bind_eq_bind, Option.bind_eq_some_iff, Option.pure_def,
    Option.some.injEq] at hc
  obtain ⟨timeout, -, interval, -, rfl⟩ := hc
  refine ⟨?_, UInt8.not_lt.mp hmax⟩
  rw [Config.first, if_neg hzero]
  exact UInt8.not_lt.mp hfirst

theorem Session.Sweeping.le_max {c : Config} {s : Session} {ttl : UInt8} (h : s.Sweeping c ttl)
    (hfirst : c.first ≤ c.maxHops) : ttl.toNat ≤ c.maxHops.toNat := by
  have httls := h.ttls
  rw [h.current]
  rcases List.eq_nil_or_concat s.hops with hnil | ⟨before, hop, hconcat⟩
  · rw [hnil]
    exact UInt8.le_iff_toNat_le.mp hfirst
  · have hpassed := UInt8.lt_iff_toNat_lt.mp (h.passed hop (by simp [hconcat])).2
    rw [hconcat, List.concat_eq_append, List.map_append, List.length_append, List.length_singleton,
      List.range'_concat] at httls
    have hlast := (List.append_inj' httls rfl).2
    simp only [List.map_cons, List.map_nil, List.cons.injEq, and_true, Nat.one_mul] at hlast
    rw [hconcat, List.concat_eq_append, List.length_append, List.length_singleton]
    omega

namespace Registry

variable {flow : Flow} {log : List Operation}

theorem Custody.sole {before after : Option Flight} {ops : List Operation} {r r' : Registry}
    (hc : Custody (fun token => token.flow = flow) before ops after r r')
    (h : r.Sole flow before log) (hops : ∀ op ∈ ops, op.Sparing flow) :
    r'.Sole flow after (log ++ ops) := by
  induction hc generalizing log with
  | lapse ops => exact h.after hops
  | enter hp hr =>
      rw [List.append_nil]
      exact h.enter hp hr
  | read =>
      rw [List.append_nil]
      exact h.read
  | leave =>
      rw [List.append_nil]
      exact h.leave
  | trans _ _ ih ih' =>
      rw [← List.append_assoc]
      exact ih' (ih h fun op hop => hops op (List.mem_append_left _ hop)) fun op hop =>
        hops op (List.mem_append_right _ hop)

theorem Sole.reserve {r : Registry} {s : Sender} (h : r.Sole s.flow none log) (ttl : UInt8)
    (now : Instant) (more : Nat) :
    ∃ m r', s.reserve ttl now more r = (s.next, .ok (m, r')) := by
  cases hr : r.register s.next.token ttl now (now + s.hopTimeout) with
  | none =>
      have hfree := h.not_contains (show s.next.token.flow = s.flow from rfl)
      rw [register_eq_none_iff.mp hr] at hfree
      cases hfree
  | some reserved => exact ⟨_, _, Sender.reserve_of_free hr⟩

end Registry

def Sender.tokenOf (s : Sender) (p : Ping) : Token :=
  ⟨s.flow, (s.overhead + Payload.wireLength p.payload.length).toUInt16⟩

/-- The pings of a sweep are numbered from one on. -/
def Ping.Numbered (first : UInt8) (p : Ping) : Prop :=
  ∃ serial ttl, p.payload = Payload.bytes serial ttl ∧
    p.ttl + 1 = first.toNat + serial.toNat ∧ p.ttl ≤ Options.hopLimit.toNat

namespace Ping.Numbered

variable {c : Config} {p q : Ping}

theorem length (h : p.Numbered c.first) : p.payload.length + c.first.toNat = p.ttl + 9 := by
  obtain ⟨serial, ttl, hpayload, hcount, hlimit⟩ := h
  have hfirst := c.one_le_first
  have hmax : Options.hopLimit.toNat = 64 := rfl
  rw [hpayload, Payload.length_bytes, Payload.length, Payload.minimum, Payload.lengths]
  omega

theorem ttl_eq_of_length (hp : p.Numbered c.first) (hq : q.Numbered c.first)
    (h : p.payload.length = q.payload.length) : p.ttl = q.ttl := by
  have hfirst := hp.length
  have hsecond := hq.length
  omega

theorem ttl_eq_of_token (hp : p.Numbered c.first) (hq : q.Numbered c.first) {b : Behaviour}
    {s : Sender} (hs : s.Equipped b) (h : s.tokenOf p = s.tokenOf q) : p.ttl = q.ttl := by
  have hlimit : ∀ x : Ping, x.Numbered c.first → x.payload.length ≤ 72 := by
    intro x hx
    have hlength := hx.length
    obtain ⟨serial, ttl, -, -, hmax⟩ := hx
    have hfirst := c.one_le_first
    have hcap : Options.hopLimit.toNat = 64 := rfl
    omega
  obtain ⟨info, hoverhead⟩ := hs.overhead
  have hsmall : info.overhead ≤ 52 := by
    unfold TcpInfo.overhead
    split <;> omega
  have hp' := hlimit p hp
  have hq' := hlimit q hq
  have hlength := congrArg (fun token => token.ipLength.toNat) h
  simp only [Sender.tokenOf, Payload.wireLength, hoverhead] at hlength
  rw [Payload.toNat_toUInt16 (by omega), Payload.toNat_toUInt16 (by omega)] at hlength
  exact hp.ttl_eq_of_length hq (by omega)

end Ping.Numbered

namespace Connection

def Tells (c : Connection) (s : Sender) (p : Ping) (hop : Hop) : Prop :=
  p.ttl = hop.ttl.toNat ∧
    (Registry.Earned (s.tokenOf p) p.sentAt c.happened.operations hop ∨
      .pong p.payload ∈ c.happened.signals ∧
        ∃ at_, hop = .resolved hop.ttl s.flow.dst.ip (at_ - p.sentAt) .destination)

def Told (c : Connection) (s : Sender) (hops : List Hop) : Prop :=
  ∀ hop ∈ hops, hop = .timedOut hop.ttl ∨ ∃ p ∈ c.pings, c.Tells s p hop

variable {c c' : Connection} {s : Sender} {hops : List Hop} {es : Agenda}

theorem Told.later (h : c.Told s hops) (hpings : ∀ p ∈ c.pings, p ∈ c'.pings)
    (hhappened : c'.happened = c.happened ++ es) : c'.Told s hops := by
  intro hop hin
  refine (h hop hin).imp_right ?_
  rintro ⟨p, hp, httl, htold⟩
  refine ⟨p, hpings p hp, httl, ?_⟩
  rw [hhappened, Agenda.operations_append, Agenda.signals_append]
  rcases htold with hearned | ⟨hpong, hecho⟩
  · exact .inl (hearned.mono (List.subset_append_left _ _))
  · exact .inr ⟨List.mem_append_left _ hpong, hecho⟩

theorem Told.concat (h : c.Told s hops) {hop : Hop}
    (hlast : hop = .timedOut hop.ttl ∨ ∃ p ∈ c.pings, c.Tells s p hop) :
    c.Told s (hops ++ [hop]) := by
  intro x hx
  rcases List.mem_append.mp hx with hx | hx
  · exact h x hx
  · rw [List.mem_singleton.mp hx]
    exact hlast

end Connection

def Flight.ping (f : Flight) : Ping := ⟨f.sentAt, f.ttl.toNat, f.payload⟩

namespace Sweep

structure Of (s : Sender) (sweep : Sweep) : Prop where
  sender : sweep.sender = { s with serial := sweep.sender.serial }
  target : sweep.session.target = s.flow.dst.ip

structure Probes (c : Config) (s : Sender) (pings : List Ping) (sweep : Sweep) (f : Flight) :
    Prop where
  same : sweep.Of s
  count : sweep.ttl.toNat + 1 = c.first.toNat + sweep.sender.serial.toNat
  ttl : f.ttl = sweep.ttl
  payload : f.payload = Payload.bytes sweep.sender.serial sweep.ttl
  token : f.token = s.tokenOf f.ping
  pinged : f.ping ∈ pings

end Sweep

def Phase.Counted (c : Config) (s : Sender) (pings : List Ping) : Phase → Prop
  | .settling sweep _ _ => sweep.Of s ∧
      sweep.ttl.toNat = c.first.toNat + sweep.sender.serial.toNat
  | .writing sweep d => sweep.Probes c s pings d.flight
  | .awaiting sweep flight => sweep.Probes c s pings flight
  | _ => True

theorem Phase.Counted.sweep {c : Config} {s : Sender} {pings : List Ping} {phase : Phase}
    (h : phase.Counted c s pings) {sweep : Sweep} (hsweep : phase.sweep? = some sweep) :
    sweep.Of s := by
  cases phase with
  | settling sweep giveUp wake =>
      cases hsweep
      exact h.1
  | writing sweep d =>
      cases hsweep
      exact h.same
  | awaiting sweep flight =>
      cases hsweep
      exact h.same
  | opening => cases hsweep
  | finished outcome at_ => cases hsweep

theorem Phase.Counted.flight {c : Config} {s : Sender} {pings : List Ping} {phase : Phase}
    (h : phase.Counted c s pings) {flight : Flight} (hflight : phase.flight? = some flight) :
    flight.ping ∈ pings ∧ flight.token = s.tokenOf flight.ping := by
  cases phase with
  | writing sweep d =>
      cases hflight
      exact ⟨h.pinged, h.token⟩
  | awaiting sweep flight =>
      cases hflight
      exact ⟨h.pinged, h.token⟩
  | opening => cases hflight
  | settling sweep giveUp wake => cases hflight
  | finished outcome at_ => cases hflight

/-- What a sweep makes of replies, on a flow under which it alone has probes. -/
structure World.Faithful (c : Config) (s : Sender) (turn : Turn) : Prop where
  sole : turn.2.engine.registry.Sole s.flow turn.1.flight? turn.2.connection.happened.operations
  counted : turn.1.Counted c s turn.2.connection.pings
  numbered : ∀ p ∈ turn.2.connection.pings, p.Numbered c.first
  told : turn.2.connection.Told s turn.1.hops

namespace World

open Registry

variable {c : Config} {s : Sender} {w : World} {phase : Phase} {es : Agenda} {turn : Turn}

theorem Course.sole (hc : Course w phase es turn) (hk : w.connection.Kept w.now)
    (h : Faithful c s (phase, w)) (hops : ∀ op ∈ es.operations, op.Sparing s.flow) :
    turn.2.engine.registry.Sole s.flow turn.1.flight?
      turn.2.connection.happened.operations := by
  have hcustody := hc.custody (P := fun token => token.flow = s.flow)
    fun sweep hsweep token htoken => by
      rw [htoken, (h.counted.sweep hsweep).sender]
  rw [(hc.kept hk).2, Agenda.operations_append]
  exact hcustody.sole h.sole hops

theorem counted_proceed {w : World} {sweep : Sweep} {hop : Hop} (hs : sweep.Of s)
    (hcount : sweep.ttl.toNat + 1 = c.first.toNat + sweep.sender.serial.toNat)
    (httl : hop.ttl = sweep.ttl) (pings : List Ping) :
    (w.proceed sweep hop).1.Counted c s pings := by
  unfold proceed
  split
  · trivial
  · rename_i hgoes
    refine ⟨⟨hs.sender, hs.target⟩, ?_⟩
    change (hop.ttl + 1).toNat = _
    rw [Session.toNat_next_of_not_endsWith hgoes, httl]
    exact hcount

theorem counted_begun {w' : World} {sender : Sender} (hw : Lapse es w w') (hs : sender.Fresh w)
    (id : String) :
    (w'.settling (begun (w'.sessionTo id sender.flow.dst.ip) sender)).1.Counted w.engine.config
      sender w'.connection.pings := by
  refine ⟨⟨rfl, rfl⟩, ?_⟩
  have hfirst : (begun (w'.sessionTo id sender.flow.dst.ip) sender).ttl = w.engine.config.first := by
    rw [← hw.config]
    rfl
  rw [hfirst]
  change _ = w.engine.config.first.toNat + sender.serial.toNat
  rw [hs.serial]
  rfl

theorem Faithful.reserve {w' : World} {sweep : Sweep} {giveUp wake : Instant} {s' : Sender}
    {answer : Except Token (Nat × Registry)} (h : Faithful c s (.settling sweep giveUp wake, w))
    (hw : Lapse es w w') (hops : ∀ op ∈ es.operations, op.Sparing s.flow)
    (hr : sweep.sender.reserve sweep.ttl w.now (Sender.attempts - 1) w'.engine.registry =
      (s', answer)) : s' = sweep.sender.next ∧ ∃ reserved, answer = .ok reserved := by
  have hflow : s.flow = sweep.sender.flow := by rw [h.counted.1.sender]
  have hsole := h.sole.after hops
  rw [← hw.registry, hflow] at hsole
  obtain ⟨m, r, hfree⟩ := hsole.reserve sweep.ttl w.now (Sender.attempts - 1)
  cases hfree.symm.trans hr
  exact ⟨rfl, _, rfl⟩

theorem probes_next {sweep : Sweep} {flight : Flight} {pings : List Ping} (hof : sweep.Of s)
    (hcount : sweep.ttl.toNat = c.first.toNat + sweep.sender.serial.toNat)
    {m : Nat} {deadline : Instant} {retransmitted : Nat}
    (hflight : flight = ⟨sweep.sender.next.token, sweep.ttl, w.now, deadline,
      Payload.bytes sweep.sender.next.serial sweep.ttl, retransmitted, m⟩)
    (hpinged : flight.ping ∈ pings) :
    Sweep.Probes c s pings { sweep with sender := sweep.sender.next } flight := by
  have hmax := sweep.ttl.toNat_lt
  have hserial : (sweep.sender.serial + 1).toNat = sweep.sender.serial.toNat + 1 := by
    rw [UInt16.toNat_add]
    simp only [UInt16.toNat_ofNat]
    omega
  refine ⟨⟨?_, hof.target⟩, ?_, ?_, ?_, ?_, hpinged⟩
  · rw [Sender.next, hof.sender]
  · change _ = c.first.toNat + (sweep.sender.serial + 1).toNat
    rw [hserial, ← Nat.add_assoc, ← hcount]
  · rw [hflight]
  · rw [hflight]
  · rw [Flight.ping, hflight]
    simp only [Sender.tokenOf, Sender.token, Sender.next, Payload.length_bytes]
    rw [hof.sender]

theorem Course.counted (hc : Course w phase es turn) (h : Faithful c s (phase, w))
    (hconfig : w.engine.config = c) (hops : ∀ op ∈ es.operations, op.Sparing s.flow)
    (hopen : phase = .opening → (Sender.start w).1 = .ok s) :
    turn.1.Counted c s turn.2.connection.pings := by
  have hstage := h.counted
  cases hc with
  | @opened es w' id sender hw hs hstart =>
      cases hstart.symm.trans (hopen rfl)
      exact hconfig ▸ counted_begun hw hs id
  | refused id target hw ha => trivial
  | cancelled => trivial
  | paused hw ht => exact hstage
  | collided hw hr =>
      obtain ⟨-, reserved, hanswer⟩ := h.reserve hw hops hr
      cases hanswer
  | unsent hw hr hw' => trivial
  | @launched es es' w' w'' sweep giveUp wake s' m r d hw hr hset hw' hd =>
      rw [Agenda.operations_append] at hops
      obtain ⟨rfl, -⟩ := h.reserve hw (fun op hop => hops op (List.mem_append_left _ hop)) hr
      refine probes_next hstage.1 hstage.2 hd ?_
      rw [hw.pings_ping hset hw', Flight.ping, hd]
      exact List.mem_cons_self
  | @landed es w' sweep d hw hset =>
      have hpings : (w'.connection.setTtl sweep.sender.defaultTtl).2.pings =
          w.connection.pings := (Connection.pings_setTtl _ _).trans hw.pings
      refine ⟨⟨hstage.same.sender, hstage.same.target⟩, hstage.count, hstage.ttl, hstage.payload,
        hstage.token, ?_⟩
      exact hpings ▸ hstage.pinged
  | crashed hw => trivial
  | calledOff => trivial
  | replied hbox httl => exact counted_proceed hstage.same hstage.count httl _
  | evicted httl => exact counted_proceed hstage.same hstage.count rfl _
  | echoed hw hpong httl => exact counted_proceed hstage.same hstage.count rfl _
  | late hw ht httl => exact counted_proceed hstage.same hstage.count rfl _
  | hungUp hw => trivial
  | waited hw ht =>
      rw [hw.pings]
      exact hstage
  | rested => trivial

/-- A probe takes the number of its TTL, so the limit on TTLs is one on numbers. -/
theorem Course.numbered (hc : Course w phase es turn) (h : Faithful c s (phase, w))
    (hcounted : turn.1.Counted c s turn.2.connection.pings)
    (hlimit : ∀ sweep, turn.1.sweep? = some sweep → sweep.ttl.toNat ≤ Options.hopLimit.toNat) :
    ∀ p ∈ turn.2.connection.pings, p.Numbered c.first := by
  rcases hc.writes with hsame | ⟨sweep, giveUp, wake, next, d, -, hphase, httl, -, hping⟩
  · rw [hsame]
    exact h.numbered
  · rw [hphase] at hcounted
    have hmax := hlimit next (by rw [hphase]; rfl)
    rw [hping]
    intro p hp
    rcases List.mem_cons.mp hp with rfl | hp
    · refine ⟨next.sender.serial, next.ttl, hcounted.payload, ?_, ?_⟩
      · rw [← httl]
        exact hcounted.count
      · rw [← httl]
        exact hmax
    · exact h.numbered p hp

theorem Course.told (hc : Course w phase es turn) (hk : w.connection.Kept w.now)
    (h : Faithful c s (phase, w)) : turn.2.connection.Told s turn.1.hops := by
  have hpings : ∀ p ∈ w.connection.pings, p ∈ turn.2.connection.pings := by
    rcases hc.writes with hsame | ⟨sweep, giveUp, wake, next, d, -, -, -, -, hping⟩
    · intro p hp
      rw [hsame]
      exact hp
    · intro p hp
      rw [hping]
      exact List.mem_cons_of_mem _ hp
  have hold : turn.2.connection.Told s phase.hops := h.told.later hpings (hc.kept hk).2
  have hstage := h.counted
  cases hc with
  | opened hw hs hstart => exact hold
  | refused id target hw ha => rcases ha with rfl | ⟨reason, rfl⟩ <;> exact hold
  | cancelled => exact hold
  | paused hw ht => exact hold
  | collided hw hr =>
      rw [hops_proceed]
      exact hold.concat (.inl rfl)
  | unsent hw hr hw' => exact hold
  | launched hw hr hset hw' hd => exact hold
  | landed hw hset => exact hold
  | crashed hw => exact hold
  | calledOff => exact hold
  | @replied sweep flight hop hbox httl =>
      obtain ⟨-, hearned⟩ := h.sole.earned flight rfl hop hbox
      rw [hops_proceed]
      refine hold.concat (.inr ⟨flight.ping, hpings _ hstage.pinged, ?_, .inl ?_⟩)
      · rw [httl, ← hstage.ttl]
        rfl
      · rw [connection_proceed, ← hstage.token]
        exact hearned
  | evicted httl =>
      rw [hops_proceed]
      exact hold.concat (.inl rfl)
  | @echoed es w' sweep flight hw hpong httl =>
      rw [hops_proceed]
      refine hold.concat (.inr ⟨flight.ping, hpings _ hstage.pinged, ?_, .inr ⟨?_, w.now, ?_⟩⟩)
      · rw [← httl]
        rfl
      · rw [connection_proceed]
        change .pong flight.payload ∈ w'.connection.happened.signals
        rw [(hw.kept hk).2, Agenda.signals_append]
        exact List.mem_append.mpr (hpong.imp_left (hk.heard _))
      · rw [← hstage.same.target]
        rfl
  | late hw ht httl =>
      rw [hops_proceed]
      exact hold.concat (.inl rfl)
  | hungUp hw => exact hold
  | waited hw ht => exact hold
  | rested => exact hold

end World

theorem Fleet.faithful_of_reaches {e : Engine} {now : Instant} {setup : Trace.Setup} {s : Sender}
    (hsound : e.registry.Sound) (hbound : e.config.Bounded)
    (hstart : (Sender.start ((setup.start now).world now e)).1 = .ok s)
    (hfree : ∀ x ∈ e.registry.entries, x.token.flow ≠ s.flow)
    (hothers : setup.behaviour.Allows (Registry.Operation.Sparing s.flow)) {f : Fleet}
    (hr : Relation.ReflTransGen Step (e.fleet now [setup]) f) :
    ∃ t, f.traces = [t] ∧ World.Faithful e.config s (t.phase, t.world f.now f.engine) := by
  let P : Instant → Engine → Trace → Prop := fun now e' t =>
    World.Faithful e.config s (t.phase, t.world now e') ∧
      (t.phase = .opening → (Sender.start (t.world now e')).1 = .ok s)
  have hfirst : (e.fleet now [setup]).Alone fun now e' t =>
      t.OnCourse e.config setup.behaviour now e' ∧ P now e' t := by
    refine ⟨setup.start now, rfl, .start setup now hsound, ⟨?_, trivial, ?_, ?_⟩, fun _ => hstart⟩
    · exact Registry.sole_of_free hsound hfree _
    · intro p hp
      cases hp
    · intro hop hin
      cases hin
  have hstep : ∀ now e' t es, t.OnCourse e.config setup.behaviour now e' → P now e' t →
      World.Course (t.world now e') t.phase es (t.turn now e') →
      (t.step now e').1.OnCourse e.config setup.behaviour now (t.step now e').2 →
      P now (t.step now e').2 (t.step now e').1 := by
    rintro now e' t es hcourse ⟨hfaithful, hopen⟩ hc hnext
    have hops := hnext.allowed hcourse.kept hc hothers
    have hlimit : ∀ sweep, (t.turn now e').1.sweep? = some sweep →
        sweep.ttl.toNat ≤ Options.hopLimit.toNat := by
      intro sweep hsweep
      have hsweeping := hnext.valid.sweeping sweep hsweep
      rw [hnext.config] at hsweeping
      exact Nat.le_trans (hsweeping.le_max hbound.first) (UInt8.le_iff_toNat_le.mp hbound.limit)
    have hcounted := hc.counted hfaithful hcourse.config hops hopen
    refine ⟨⟨hc.sole hcourse.kept hfaithful hops, hcounted,
      hc.numbered hfaithful hcounted hlimit, hc.told hcourse.kept hfaithful⟩, ?_⟩
    exact fun hphase => absurd hphase hc.ne_opening
  have hwait : ∀ now later e' t, t.ready now e' = false → P now e' t → P later e' t := by
    rintro now later e' t hnot ⟨hfaithful, -⟩
    refine ⟨⟨hfaithful.sole, hfaithful.counted, hfaithful.numbered, hfaithful.told⟩, ?_⟩
    -- A trace opens at once, before the clock moves.
    intro hphase
    simp [Trace.ready, hphase] at hnot
  obtain ⟨t, ht, -, hfaithful, -⟩ := hfirst.onCourse hstep hwait hr
  exact ⟨t, ht, hfaithful⟩

theorem Connection.ping_eq_of_ttl {c : Connection} {p q : Ping}
    (hc : (c.pings.map Ping.ttl).Pairwise fun later earlier => earlier < later)
    (hp : p ∈ c.pings) (hq : q ∈ c.pings) (h : p.ttl = q.ttl) : p = q :=
  List.inj_on_of_nodup_map (hc.imp Nat.ne_of_gt) hp hq h

namespace World.Faithful

variable {c : Config} {s : Sender} {phase : Phase} {w : World}

theorem ping_eq_of_token (hf : Faithful c s (phase, w)) {b : Behaviour} (hs : s.Equipped b)
    (hw : (w.connection.pings.map Ping.ttl).Pairwise fun later earlier => earlier < later)
    {p q : Ping} (hp : p ∈ w.connection.pings) (hq : q ∈ w.connection.pings)
    (h : s.tokenOf p = s.tokenOf q) : p = q :=
  Connection.ping_eq_of_ttl hw hp hq
    ((hf.numbered p hp).ttl_eq_of_token (hf.numbered q hq) hs h)

theorem ping_eq_of_payload (hf : Faithful c s (phase, w))
    (hw : (w.connection.pings.map Ping.ttl).Pairwise fun later earlier => earlier < later)
    {p q : Ping} (hp : p ∈ w.connection.pings) (hq : q ∈ w.connection.pings)
    (h : p.payload = q.payload) : p = q :=
  Connection.ping_eq_of_ttl hw hp hq
    ((hf.numbered p hp).ttl_eq_of_length (hf.numbered q hq) (congrArg List.length h))

theorem nodup_tokens (hf : Faithful c s (phase, w)) {b : Behaviour} (hs : s.Equipped b)
    (hw : (w.connection.pings.map Ping.ttl).Pairwise fun later earlier => earlier < later) :
    (w.connection.pings.map s.tokenOf).Nodup := by
  have hnodup : w.connection.pings.Nodup := List.Nodup.of_map Ping.ttl (hw.imp Nat.ne_of_gt)
  exact hnodup.map_on fun p hp q hq h => hf.ping_eq_of_token hs hw hp hq h

end World.Faithful

/-- A late reply never lands on a later hop. -/
theorem Engine.replies_of_run {o : Options} (e : Engine) (history : List Registry.Operation)
    (now : Instant) (setup : Trace.Setup) {s : Sender} {w : World} (hvalid : o.invalid? = none)
    (hconfig : o.config? = some e.config)
    (hstart : Sender.start ((setup.start now).world now (e.withHistory history)) = (.ok s, w))
    (hfree : ∀ x ∈ (Registry.empty.after history).entries, x.token.flow ≠ s.flow)
    (hothers : setup.behaviour.Allows (Registry.Operation.Sparing s.flow)) {f : Fleet}
    (hf : Relation.ReflTransGen Fleet.Step ((e.withHistory history).fleet now [setup]) f) :
    ∃ t, f.traces = [t] ∧ (t.connection.pings.map s.tokenOf).Nodup ∧
      (∀ p ∈ t.connection.pings, ∀ later, (∀ op ∈ later, op.Sparing s.flow) →
        ∀ data source at_ reply, Packet.Reply.ofDatagram data source = .ok reply →
          reply.token = s.tokenOf p →
          let r := f.engine.registry.after later
          let answer := r.dispatch data source at_
          (answer.1 = .unmatched reply.token ∧ ∀ n, answer.2.mailbox? n = r.mailbox? n) ∨
            ∃ flight, t.phase.flight? = some flight ∧ flight.ping = p ∧
              answer.1 = .delivered reply.token ∧
              (∃ stamp, Registry.Stamped reply.token p.sentAt
                  (t.connection.happened.operations ++ later) stamp ∧
                answer.2.mailbox? flight.mailbox = some (.holding
                  (.resolved flight.ttl reply.responder (at_ - stamp) reply.kind))) ∧
              ∀ n, n ≠ flight.mailbox → answer.2.mailbox? n = r.mailbox? n) ∧
      (∀ sweep flight, t.phase = .awaiting sweep flight → ∀ p ∈ t.connection.pings,
        p ≠ flight.ping → ∀ rest w, World.readSignals flight (.pong p.payload :: rest) w =
          World.readSignals flight rest w) ∧
      t.connection.Told s t.phase.hops := by
  have hsound := Registry.sound_after_empty history
  have hequipped := (Sender.start_fresh hstart).1.equipped
  obtain ⟨t, ht, hfaithful⟩ := Fleet.faithful_of_reaches (e := e.withHistory history) hsound
    (Options.bounded_of_valid hvalid hconfig) (by rw [hstart]) hfree hothers hf
  obtain ⟨t', tried, ht', -, hwired⟩ := Fleet.wired_of_reaches hsound hf
  obtain rfl : t = t' := List.singleton_inj.mp (ht.symm.trans ht')
  have hfalling := hwired.pings
  refine ⟨t, ht, hfaithful.nodup_tokens hequipped hfalling, ?_, ?_, hfaithful.told⟩
  · intro p hp later hlater data source at_ reply hparse hreply r answer
    have hsole := hfaithful.sole.after hlater
    rcases hsole.dispatch hparse (by rw [hreply]; rfl) at_ with
      hlost | ⟨flight, hflight, hnamed, hcame, ⟨stamp, hstamp, hbox⟩, hrest⟩
    · exact .inl hlost
    · obtain ⟨hpinged, hown⟩ := hfaithful.counted.flight hflight
      have hping : flight.ping = p := hfaithful.ping_eq_of_token hequipped hfalling hpinged hp
        (hown.symm.trans (hnamed.symm.trans hreply))
      refine .inr ⟨flight, hflight, hping, hcame, ⟨stamp, ?_, hbox⟩, hrest⟩
      rw [hnamed, ← hping]
      exact hstamp
  · intro sweep flight hphase p hp hne rest w'
    have hflight : t.phase.flight? = some flight := by
      rw [hphase]
      rfl
    obtain ⟨hpinged, -⟩ := hfaithful.counted.flight hflight
    have hother : p.payload ≠ flight.payload := fun hpayload =>
      hne (hfaithful.ping_eq_of_payload hfalling hp hpinged hpayload)
    rw [World.readSignals, if_neg hother]

def Options.brief : Options := { maxHops := 2 }

def Engine.belated : Engine where
  config := { Config.default with maxHops := 2 }
  wallClock := fun _ => ⟨0, 0⟩

def Sender.belated : Sender where
  flow := .between (.v4 ⟨192, 0, 2, 10⟩ 443) (.v4 ⟨198, 51, 100, 20⟩ 51234)
  overhead := 40
  defaultTtl := 64
  hopTimeout := Span.ofMillis 1200

def Trace.Setup.belated : Setup where
  id := "a"
  behaviour :=
    { localAddress := .ok Sender.belated.flow.src
      peerAddress := fun _ => .ok Sender.belated.flow.dst
      write := fun ttl =>
        { reactions :=
            if ttl = 1 then
              [(Span.ofMillis 1300, .quoting Sender.belated.flow ⟨0, 0, false⟩
                (.v4 ⟨10, 0, 0, 1⟩) .timeExceeded 0), (Span.ofMillis 1300, .pong)]
            else [(Span.ofMillis 250, .pong)] } }

def Fleet.belated : Fleet :=
  ((Engine.belated.withHistory []).fleet 0 [Trace.Setup.belated]).run

theorem Engine.replies_of_belated_run :
    ∃ t, Fleet.belated.traces = [t] ∧
      t.phase.hops = [.timedOut 1,
        .resolved 2 (.v4 ⟨198, 51, 100, 20⟩) (Span.ofMillis 250) .destination] ∧
      t.connection.captures =
        [(Span.ofMillis 1300, .dispatched (.unmatched ⟨Sender.belated.flow, 51⟩))] ∧
      t.connection.Told Sender.belated t.phase.hops := by
  have hothers : Trace.Setup.belated.behaviour.Allows
      (Registry.Operation.Sparing Sender.belated.flow) := by
    refine ⟨nofun, ?_⟩
    intro ttl r hr payload due op hop
    simp only [Trace.Setup.belated] at hr
    split at hr
    · rcases List.mem_cons.mp hr with rfl | hr
      · cases hop
        trivial
      · rw [List.mem_singleton.mp hr] at hop
        cases hop
    · rw [List.mem_singleton.mp hr] at hop
      cases hop
  have hstart : Sender.start ((Trace.Setup.belated.start 0).world 0 (Engine.belated.withHistory []))
      = (.ok Sender.belated, (Sender.start ((Trace.Setup.belated.start 0).world 0
        (Engine.belated.withHistory []))).2) := Prod.ext (by rfl) rfl
  have hhops : Fleet.belated.traces.map (fun t => t.phase.hops) = [[.timedOut 1,
      .resolved 2 (.v4 ⟨198, 51, 100, 20⟩) (Span.ofMillis 250) .destination]] := by decide +kernel
  have hcaptures : Fleet.belated.traces.map (fun t => t.connection.captures) =
      [[(Span.ofMillis 1300, .dispatched (.unmatched ⟨Sender.belated.flow, 51⟩))]] := by
    decide +kernel
  obtain ⟨t, ht, -, -, -, htold⟩ := Engine.replies_of_run (o := Options.brief) Engine.belated [] 0
    .belated (f := Fleet.belated) (by decide +kernel) (by decide +kernel) hstart nofun hothers
    (Fleet.reaches_run _)
  rw [ht] at hhops hcaptures
  exact ⟨t, ht, List.singleton_inj.mp hhops, List.singleton_inj.mp hcaptures, htold⟩

end InbandTrace
