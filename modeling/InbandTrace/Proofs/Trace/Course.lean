import InbandTrace.Proofs.Engine.Lapse
import InbandTrace.Proofs.Trace.Run

namespace InbandTrace

namespace Registry

theorem restamp_of_register {r r' : Registry} {token : Token} {ttl : UInt8} {s d : Instant}
    {n : Nat} (h : r.register token ttl s d = some (n, r')) : (r'.restamp token s d).2 = r' := by
  obtain ⟨hfree, rfl, rfl⟩ := register_eq_some_iff.mp h
  have hold : r.entries.map (fun e =>
      if e.token = token then { e with sentAt := s, deadline := d } else e) = r.entries :=
    (List.map_congr_left fun e he => if_neg (contains_eq_false_iff.mp hfree e he)).trans
      (List.map_id' _)
  simp [restamp, hold]

end Registry

namespace Sender

structure Equipped (b : Behaviour) (s : Sender) : Prop where
  flow : flowOf b = .ok s.flow
  overhead : ∃ info : TcpInfo, s.overhead = info.overhead

structure Fresh (s : Sender) (w : World) : Prop where
  equipped : s.Equipped w.connection.behaviour
  defaultTtl : s.defaultTtl = w.connection.ttl
  serial : s.serial = 0

theorem start_fresh {s : Sender} {w w' : World} (h : start w = (.ok s, w')) :
    s.Fresh w ∧ w.Lapse w.dueEvents w' := by
  have hlapse := w.lapse_statistics
  unfold start at h
  split at h
  · cases h
  rename_i flow hflow
  split at h
  · cases h
  rename_i info w₁ hinfo
  rw [hinfo] at hlapse
  split at h
  · cases h
  cases h
  exact ⟨⟨⟨hflow, info, rfl⟩, hlapse.ttl, rfl⟩, hlapse⟩

theorem start_refused {e : TraceError} {w w' : World} (h : start w = (.error e, w')) :
    ∃ es, w.Lapse es w' := by
  have hlapse := w.lapse_statistics
  unfold start at h
  split at h
  · cases h
    exact ⟨_, .refl w⟩
  split at h
  · rename_i fault w₁ hinfo
    rw [hinfo] at hlapse
    cases h
    exact ⟨_, hlapse⟩
  rename_i info w₁ hinfo
  rw [hinfo] at hlapse
  split at h
  · cases h
    exact ⟨_, hlapse⟩
  · cases h

end Sender

def Phase.flight? : Phase → Option Flight
  | .writing _ d => some d.flight
  | .awaiting _ flight => some flight
  | _ => none

@[simp]
theorem Connection.pings_setTtl (c : Connection) (v : Nat) : (c.setTtl v).2.pings = c.pings := by
  unfold setTtl
  split <;> rfl

namespace World

section

variable {es es' : Agenda} {w w' w'' : World} {r : Registry} {ttl : Nat}

theorem Lapse.pings_lowered (hw : Lapse es w w')
    (hw' : Lapse es' ((w'.withRegistry r).setTtl ttl).2 w'') :
    w''.connection.pings = w.connection.pings :=
  hw'.pings.trans ((Connection.pings_setTtl _ _).trans hw.pings)

theorem Lapse.pings_ping (hw : Lapse es w w') (hset : ((w'.withRegistry r).setTtl ttl).1 = none)
    (hw' : Lapse es' ((w'.withRegistry r).setTtl ttl).2 w'') (payload : List UInt8) :
    (w''.ping payload).connection.pings = ⟨w.now, ttl, payload⟩ :: w.connection.pings := by
  have hnow : w''.now = w.now := hw'.now.trans hw.now
  have hlow : w''.connection.ttl = ttl := hw'.ttl.trans (ttl_setTtl hset)
  change ⟨w''.now, w''.connection.ttl, payload⟩ :: w''.connection.pings = _
  rw [hnow, hlow, hw.pings_lowered hw']

end

theorem lapse_readSignals (flight : Flight) {signals : List Signal} {w : World}
    (hs : ∀ s ∈ signals, s ∈ w.connection.inbox) :
    Lapse [] w (readSignals flight signals w).2 := by
  have hleave : ∀ (w : World) (left : List Signal), (∀ s ∈ left, s ∈ w.connection.inbox) →
      Lapse [] w { w with connection := { w.connection with inbox := left } } :=
    fun w left hleft => ⟨rfl, rfl, rfl, rfl, by simp, rfl, fun s hin => .inl (hleft s hin)⟩
  induction signals generalizing w with
  | nil => exact hleave w [] hs
  | cons signal rest ih =>
      have hrest : ∀ s ∈ rest, s ∈ w.connection.inbox := fun s hin =>
        hs s (List.mem_cons_of_mem _ hin)
      cases signal with
      | closed => exact hleave w rest hrest
      | pong payload =>
          simp only [readSignals]
          split
          · have hquery := w.lapse_query
            split
            · rename_i info w₁ h
              rw [h] at hquery
              have hsame : w₁.connection.inbox = w.connection.inbox := by
                rw [show w₁ = w.query.2 by rw [h]]
                rfl
              split
              · exact hquery.trans (hleave w₁ rest (by rwa [hsame]))
              · exact hquery.trans (ih (by rwa [hsame]))
            · rename_i fault w₁ h
              rw [h] at hquery
              have hsame : w₁.connection.inbox = w.connection.inbox := by
                rw [show w₁ = w.query.2 by rw [h]]
                rfl
              exact hquery.trans (ih (by rwa [hsame]))
          · exact ih hrest

theorem mem_of_echoed {flight : Flight} {signals : List Signal} {w : World}
    (h : (readSignals flight signals w).1 = .echoed) : .pong flight.payload ∈ signals := by
  induction signals generalizing w with
  | nil => cases h
  | cons signal rest ih =>
      cases signal with
      | closed => cases h
      | pong payload =>
          by_cases hp : payload = flight.payload
          · exact hp ▸ List.mem_cons_self
          · simp only [readSignals, if_neg hp] at h
            exact List.mem_cons_of_mem _ (ih h)

theorem lapse_listen (w : World) (flight : Flight) :
    Lapse w.dueEvents w (w.listen flight).2 := by
  have h := w.lapse_catchUp.trans
    (lapse_readSignals flight (w := w.catchUp) fun s hs => hs)
  rwa [List.append_nil] at h

theorem heard_of_listen {w : World} {flight : Flight} (h : (w.listen flight).1 = .echoed) :
    .pong flight.payload ∈ w.connection.inbox ∨ .pong flight.payload ∈ w.dueEvents.signals :=
  w.lapse_catchUp.inbox _ (mem_of_echoed h)

def breakOff (w : World) (sweep : Sweep) (abort : Abort) : Turn :=
  w.finish { sweep.session with state := .aborted } (some abort)

def proceed (w : World) (sweep : Sweep) (hop : Hop) : Turn :=
  if sweep.session.endsWith hop then w.finish (Sweep.last sweep hop) none
  else w.settling (Sweep.onward sweep hop)

theorem conclude_eq_proceed {w : World} {sweep : Sweep} {hop : Hop}
    (h : sweep.session.state = .awaitingResponse hop.ttl) :
    w.conclude sweep hop = w.proceed sweep hop := conclude_of_awaited h

section

variable (w : World) (sweep : Sweep) (hop : Hop)

@[simp]
theorem connection_proceed : (w.proceed sweep hop).2.connection = w.connection := by
  unfold proceed
  split <;> rfl

@[simp]
theorem registry_proceed : (w.proceed sweep hop).2.engine.registry = w.engine.registry := by
  unfold proceed
  split <;> rfl

@[simp]
theorem flight?_proceed : (w.proceed sweep hop).1.flight? = none := by
  unfold proceed
  split <;> rfl

end

inductive Course (w : World) : Phase → Agenda → Turn → Prop where
  | opened {es : Agenda} {w' : World} {id : String} {sender : Sender} (hw : Lapse es w w')
      (hs : sender.Fresh w) (hstart : (Sender.start w).1 = .ok sender) :
      Course w .opening es (w'.settling (begun (w'.sessionTo id sender.flow.dst.ip) sender))
  | refused {es : Agenda} {w' : World} (id : String) (target : Net.Ip) {abort : Abort}
      (hw : Lapse es w w') (ha : abort = .closed ∨ ∃ reason, abort = .failed (.config reason)) :
      Course w .opening es
        (w'.finish { w'.sessionTo id target with state := .aborted } (some abort))
  | cancelled {sweep : Sweep} {giveUp wake : Instant} :
      Course w (.settling sweep giveUp wake) [] (w.breakOff sweep .cancelled)
  | paused {es : Agenda} {w' : World} {sweep : Sweep} {giveUp wake : Instant}
      (hw : Lapse es w w') (ht : w.now < giveUp) :
      Course w (.settling sweep giveUp wake) es
        (.settling sweep giveUp (w.now + Settle.interval), w')
  | collided {es : Agenda} {w' : World} {sweep : Sweep} {giveUp wake : Instant} {s : Sender}
      {token : Token} (hw : Lapse es w w')
      (hr : sweep.sender.reserve sweep.ttl w.now (Sender.attempts - 1) w'.engine.registry =
        (s, .error token)) :
      Course w (.settling sweep giveUp wake) es
        (w'.proceed { awaited sweep with sender := s } (.timedOut sweep.ttl))
  | unsent {es es' : Agenda} {w' w'' : World} {sweep : Sweep} {giveUp wake : Instant}
      {s : Sender} {m : Nat} {r : Registry} (hw : Lapse es w w')
      (hr : sweep.sender.reserve sweep.ttl w.now (Sender.attempts - 1) w'.engine.registry =
        (s, .ok (m, r)))
      (hw' : Lapse es' ((w'.withRegistry r).setTtl sweep.ttl.toNat).2 w'') :
      Course w (.settling sweep giveUp wake) (es ++ es') ((s.abandon w'' m).breakOff sweep .closed)
  | launched {es es' : Agenda} {w' w'' : World} {sweep : Sweep} {giveUp wake : Instant}
      {s : Sender} {m : Nat} {r : Registry} {d : Departure} (hw : Lapse es w w')
      (hr : sweep.sender.reserve sweep.ttl w.now (Sender.attempts - 1) w'.engine.registry =
        (s, .ok (m, r)))
      (hset : ((w'.withRegistry r).setTtl sweep.ttl.toNat).1 = none)
      (hw' : Lapse es' ((w'.withRegistry r).setTtl sweep.ttl.toNat).2 w'')
      (hd : d.flight = ⟨s.token, sweep.ttl, w.now, w.now + s.hopTimeout,
        Payload.bytes s.serial sweep.ttl, d.flight.retransmitted, m⟩) :
      Course w (.settling sweep giveUp wake) (es ++ es')
        (.writing { sweep with sender := s } d, w''.ping d.flight.payload)
  | landed {es : Agenda} {w' : World} {sweep : Sweep} {d : Departure} (hw : Lapse es w w')
      (hset : (w'.setTtl sweep.sender.defaultTtl).1 = none) :
      Course w (.writing sweep d) es
        (.awaiting (awaited sweep) d.flight, (w'.setTtl sweep.sender.defaultTtl).2)
  | crashed {es : Agenda} {w' : World} {sweep : Sweep} {d : Departure} (hw : Lapse es w w') :
      Course w (.writing sweep d) es
        (((w'.setTtl sweep.sender.defaultTtl).2.forget d.flight.token d.flight.mailbox).breakOff
          sweep .closed)
  | calledOff {sweep : Sweep} {flight : Flight} :
      Course w (.awaiting sweep flight) []
        ((w.forget flight.token flight.mailbox).breakOff sweep .cancelled)
  | replied {sweep : Sweep} {flight : Flight} {hop : Hop}
      (hbox : w.engine.registry.mailbox? flight.mailbox = some (.holding hop))
      (httl : hop.ttl = sweep.ttl) :
      Course w (.awaiting sweep flight) []
        (((w.receive flight.mailbox).2.forget flight.token flight.mailbox).proceed sweep hop)
  | evicted {sweep : Sweep} {flight : Flight} (httl : flight.ttl = sweep.ttl) :
      Course w (.awaiting sweep flight) []
        (((w.receive flight.mailbox).2.forget flight.token flight.mailbox).proceed sweep
          (.timedOut sweep.ttl))
  | echoed {es : Agenda} {w' : World} {sweep : Sweep} {flight : Flight} (hw : Lapse es w w')
      (hpong : .pong flight.payload ∈ w.connection.inbox ∨ .pong flight.payload ∈ es.signals)
      (httl : flight.ttl = sweep.ttl) :
      Course w (.awaiting sweep flight) es
        ((w'.forget flight.token flight.mailbox).proceed sweep
          (.resolved sweep.ttl sweep.session.target (w.now - flight.sentAt) .destination))
  | late {es : Agenda} {w' : World} {sweep : Sweep} {flight : Flight} (hw : Lapse es w w')
      (ht : flight.deadline ≤ w.now) (httl : flight.ttl = sweep.ttl) :
      Course w (.awaiting sweep flight) es
        ((w'.forget flight.token flight.mailbox).proceed sweep (.timedOut sweep.ttl))
  | hungUp {es : Agenda} {w' : World} {sweep : Sweep} {flight : Flight} (hw : Lapse es w w') :
      Course w (.awaiting sweep flight) es
        ((w'.forget flight.token flight.mailbox).breakOff sweep .closed)
  | waited {es : Agenda} {w' : World} {sweep : Sweep} {flight : Flight} (hw : Lapse es w w')
      (ht : w.now < flight.deadline) :
      Course w (.awaiting sweep flight) es (.awaiting sweep flight, w')
  | rested {outcome : Except TraceError TraceResult} {at_ : Instant} :
      Course w (.finished outcome at_) [] (.finished outcome at_, w)

theorem course_opening (w : World) (id : String) : ∃ es, Course w .opening es (w.opening id) := by
  unfold opening
  split
  · rename_i e w' h
    obtain ⟨es, hlapse⟩ := Sender.start_refused h
    refine ⟨es, ?_⟩
    rw [giveUp_of_open rfl]
    rcases start_error h with ⟨reason, rfl⟩ | ⟨fault, rfl⟩
    · exact .refused id _ hlapse (.inr ⟨reason, rfl⟩)
    · exact .refused id _ hlapse (.inl rfl)
  · rename_i sender w' h
    obtain ⟨hfresh, hlapse⟩ := Sender.start_fresh h
    have hidle : (w'.sessionTo id sender.flow.dst.ip).state = .idle := rfl
    simp only [Session.begin_of_idle hidle]
    exact ⟨_, .opened hlapse hfresh (by rw [h])⟩

theorem restamp_of_reserve {ttl : UInt8} {more m : Nat} {s s' : Sender} {w : World}
    {r : Registry} (h : s.reserve ttl w.now more w.engine.registry = (s', .ok (m, r))) :
    let w₁ := ((w.withRegistry r).setTtl ttl.toNat).2
    w₁.withRegistry (w₁.engine.registry.restamp s'.token w₁.now (w₁.now + s'.hopTimeout)).2 =
      w₁ := by
  obtain ⟨hs, hreg⟩ := Sender.reserve_ok h
  have htime : s'.hopTimeout = s.hopTimeout := by rw [hs]
  intro w₁
  -- No time has passed since the registration, so the stamps are the ones it already has.
  have hsame : (w₁.engine.registry.restamp s'.token w₁.now (w₁.now + s'.hopTimeout)).2 =
      w₁.engine.registry := by
    rw [htime]
    exact Registry.restamp_of_register hreg
  rw [hsame]
  rfl

theorem launch_cases {s s' : Sender} {w w' : World} {ttl : UInt8}
    {answer : Except TraceError Departure} (h : s.launch w ttl = (answer, s', w')) :
    let w₁ := w.statistics.2
    (∃ token, answer = .error (.tokenCollision token) ∧ w' = w₁ ∧
        s.reserve ttl w.now (Sender.attempts - 1) w₁.engine.registry = (s', .error token)) ∨
    ∃ m r, s.reserve ttl w.now (Sender.attempts - 1) w₁.engine.registry = (s', .ok (m, r)) ∧
      let lowered := (w₁.withRegistry r).setTtl ttl.toNat
      ∃ es w₂, Lapse es lowered.2 w₂ ∧
        ((∃ fault, answer = .error (.fault fault) ∧ w' = s'.abandon w₂ m) ∨
          ∃ d, answer = .ok d ∧ lowered.1 = none ∧
            d.flight = ⟨s'.token, ttl, w.now, w.now + s'.hopTimeout, Payload.bytes s'.serial ttl,
              d.flight.retransmitted, m⟩ ∧
            w' = w₂.ping d.flight.payload) := by
  have hnow : w.statistics.2.now = w.now := w.lapse_statistics.now
  intro w₁
  simp only [Sender.launch] at h
  split at h
  · rename_i s₁ token hres
    cases h
    rw [hnow] at hres
    exact .inl ⟨token, rfl, rfl, hres⟩
  · rename_i s₁ m r hres
    have hstamp := restamp_of_reserve hres
    rw [hnow] at hres
    simp only [Sender.transmit] at h
    cases hlow : (w.statistics.2.withRegistry r).setTtl ttl.toNat with
    | mk answer₁ w₂ =>
        rw [hlow] at h hstamp
        have hnow₂ : w₂.now = w.now := by
          rw [show w₂ = ((w.statistics.2.withRegistry r).setTtl ttl.toNat).2 by rw [hlow]]
          exact (evolves_setTtl (P := fun _ => True) _ _).now.trans hnow
        cases answer₁ with
        | some fault =>
            cases h
            exact .inr ⟨m, r, hres, [], w₂, by rw [hlow]; exact .refl w₂, .inl ⟨fault, rfl, rfl⟩⟩
        | none =>
            simp only [hstamp] at h
            have hlapse := w₂.lapse_catchUp
            cases hwrite : (w₂.catchUp.connection.behaviour.write
                w₂.catchUp.connection.ttl).refusal with
            | some fault =>
                simp only [hwrite] at h
                cases h
                exact .inr ⟨m, r, hres, _, _, by rw [hlow]; exact hlapse, .inl ⟨fault, rfl, rfl⟩⟩
            | none =>
                simp only [hwrite] at h
                cases h
                refine .inr ⟨m, r, hres, _, _, by rw [hlow]; exact hlapse,
                  .inr ⟨_, rfl, by rw [hlow], ?_, rfl⟩⟩
                rw [hlapse.now, hnow₂]

theorem course_probeWhenQuiet {w : World} {sweep : Sweep} {giveUp wake : Instant}
    (hstate : sweep.session.state = .probing sweep.ttl) :
    ∃ es, Course w (.settling sweep giveUp wake) es (w.probeWhenQuiet sweep giveUp) := by
  have hasked := w.lapse_statistics
  have hagain := hasked.trans w.statistics.2.lapse_statistics
  simp only [probeWhenQuiet]
  split
  · unfold probe
    split
    · rename_i d s w' h
      rcases launch_cases h with ⟨token, hanswer, -⟩ | ⟨m, r, hr, es, w₂, hw₂, hsent⟩
      · cases hanswer
      rw [hasked.now] at hr hsent
      rcases hsent with ⟨fault, hanswer, -⟩ | ⟨d', hanswer, hset, hd, rfl⟩
      · cases hanswer
      · cases hanswer
        exact ⟨_, .launched hagain hr hset hw₂ hd⟩
    · rename_i token s w' h
      rcases launch_cases h with ⟨token', -, rfl, hr⟩ | ⟨m, r, -, es, w₂, -, hsent⟩
      · rw [hasked.now] at hr
        rw [await_of_probing hstate, conclude_of_awaited rfl]
        exact ⟨_, Course.collided hagain hr⟩
      · rcases hsent with ⟨fault, hanswer, -⟩ | ⟨d', hanswer, -⟩ <;> cases hanswer
    · rename_i fault s w' h
      rw [giveUp_of_open (by simp [hstate, SessionState.isTerminal])]
      rcases launch_cases h with ⟨token, hanswer, -⟩ | ⟨m, r, hr, es, w₂, hw₂, hsent⟩
      · cases hanswer
      rw [hasked.now] at hr
      rcases hsent with ⟨fault', -, rfl⟩ | ⟨d', hanswer, -⟩
      · exact ⟨_, .unsent hagain hr hw₂⟩
      · cases hanswer
    · rename_i e s w' htoken hfault h
      rcases launch_cases h with ⟨token, hanswer, -⟩ | ⟨m, r, -, es, w₂, -, hsent⟩
      · cases hanswer
        exact absurd rfl (htoken token)
      rcases hsent with ⟨fault, hanswer, -⟩ | ⟨d', hanswer, -⟩ <;> cases hanswer
      exact absurd rfl (hfault fault)
  · rename_i h
    simp only [Bool.or_eq_true, decide_eq_true_eq, not_or, Nat.not_le] at h
    rw [hasked.now] at h ⊢
    exact ⟨_, .paused hasked h.2⟩

theorem course_written {w : World} {r : Registry} {sweep : Sweep} {d : Departure}
    (hstand : Phase.Standing r (.writing sweep d)) :
    ∃ es, Course w (.writing sweep d) es (w.written sweep d) := by
  obtain ⟨es, hw⟩ : ∃ es, Lapse es w (if d.pauses then w.catchUp else w) := by
    split
    · exact ⟨_, w.lapse_catchUp⟩
    · exact ⟨_, .refl w⟩
  refine ⟨es, ?_⟩
  have hopen := hstand.isOpen rfl
  simp only [written, Sender.land, Sender.restore]
  split
  · rename_i fault w' h
    rw [giveUp_of_open hopen]
    split at h
    · cases h
    · cases h
      exact .crashed hw
    · cases h
      exact .crashed hw
  · rename_i flight w' h
    split at h
    · rename_i hfailure hset
      cases h
      rw [await_of_probing hstand.1]
      exact .landed hw hset
    · cases h
    · cases h

theorem course_look {w : World} {sweep : Sweep} {flight : Flight}
    (hstand : Phase.Standing w.engine.registry (.awaiting sweep flight)) :
    ∃ es, Course w (.awaiting sweep flight) es (w.look sweep flight) := by
  have hopen := hstand.isOpen rfl
  obtain ⟨hstate, httl, hass⟩ := hstand
  unfold look
  split
  · rename_i hop w' h
    have hbox := receive_hop h
    rw [show w' = (w.receive flight.mailbox).2 by rw [h]]
    obtain ⟨e, ip, t, kind, he, rfl⟩ := hass.hop _ hbox
    rw [conclude_of_awaited (hstate.trans (by rw [← he]; rfl))]
    exact ⟨[], .replied hbox he⟩
  · rename_i w' h
    rw [show w' = (w.receive flight.mailbox).2 by rw [h], httl, conclude_of_awaited hstate]
    exact ⟨[], .evicted httl⟩
  · rename_i w' h
    obtain ⟨-, rfl⟩ := receive_empty h
    have hl := w'.lapse_listen flight
    refine ⟨w'.dueEvents, ?_⟩
    split
    · rename_i w₁ hsign
      have hpong := heard_of_listen (show (w'.listen flight).1 = .echoed by rw [hsign])
      rw [hsign] at hl
      rw [hl.now, httl, conclude_of_awaited hstate]
      exact .echoed hl hpong httl
    · rename_i w₁ hsign
      rw [hsign] at hl
      rw [giveUp_of_open hopen]
      exact .hungUp hl
    · rename_i w₁ hsign
      rw [hsign] at hl
      rw [hl.now]
      split
      · rename_i hlate
        rw [httl, conclude_of_awaited hstate]
        exact .late hl hlate httl
      · rename_i hearly
        exact .waited hl (Nat.lt_of_not_le hearly)

end World

namespace Trace

theorem course_turn {t : Trace} {e : Engine} (now : Instant) (h : t.phase.Standing e.registry) :
    ∃ es, World.Course (t.world now e) t.phase es (t.turn now e) := by
  unfold turn
  cases hphase : t.phase with
  | opening => exact World.course_opening _ _
  | settling sweep giveUp wake =>
      rw [hphase] at h
      simp only
      split
      · rw [World.giveUp_of_open (h.isOpen rfl)]
        exact ⟨_, .cancelled⟩
      · exact World.course_probeWhenQuiet h
  | writing sweep d =>
      rw [hphase] at h
      exact World.course_written h
  | awaiting sweep flight =>
      rw [hphase] at h
      simp only
      split
      · rw [World.giveUp_of_open (h.isOpen rfl)]
        exact ⟨_, .calledOff⟩
      · exact World.course_look h
  | finished outcome at_ => exact ⟨_, .rested⟩

end Trace

namespace World

theorem Lapse.kept_setTtl {w w' : World} {es : Agenda} (hw : Lapse es w w')
    (hk : w.connection.Kept w.now) (ttl : Nat) :
    (w'.connection.setTtl ttl).2.Kept w.now ∧
      (w'.connection.setTtl ttl).2.happened = w.connection.happened ++ es := by
  obtain ⟨hkept, hhappened⟩ := hw.kept hk
  obtain ⟨hkept', hsame⟩ := hkept.setTtl ttl
  exact ⟨hkept', hsame.trans hhappened⟩

theorem Lapse.kept_lowered {w w' w'' : World} {es es' : Agenda} {r : Registry} {ttl : Nat}
    (hw : Lapse es w w') (hk : w.connection.Kept w.now)
    (hw' : Lapse es' ((w'.withRegistry r).setTtl ttl).2 w'') :
    w''.now = w.now ∧ w''.connection.Kept w.now ∧
      w''.connection.happened = w.connection.happened ++ (es ++ es') := by
  obtain ⟨hkept, hhappened⟩ := hw.kept_setTtl hk ttl
  rw [← hw.now] at hkept
  obtain ⟨hkept', hhappened'⟩ := hw'.kept hkept
  refine ⟨hw'.now.trans hw.now, hw.now ▸ hkept', ?_⟩
  rw [hhappened', ← List.append_assoc, ← hhappened]
  rfl

theorem Course.kept {w : World} {phase : Phase} {es : Agenda} {turn : Turn}
    (hc : Course w phase es turn) (hk : w.connection.Kept w.now) :
    turn.2.connection.Kept w.now ∧ turn.2.connection.happened = w.connection.happened ++ es := by
  have hnothing : w.connection.Kept w.now ∧
      w.connection.happened = w.connection.happened ++ [] := ⟨hk, (List.append_nil _).symm⟩
  cases hc with
  | opened hw hs hstart => exact hw.kept hk
  | refused id target hw ha => exact hw.kept hk
  | cancelled => exact hnothing
  | paused hw ht => exact hw.kept hk
  | collided hw hr =>
      rw [connection_proceed]
      exact hw.kept hk
  | @unsent es es' w' w'' sweep giveUp wake s m r hw hr hw' =>
      obtain ⟨-, hkept, hhappened⟩ := hw.kept_lowered hk hw'
      obtain ⟨hkept', hsame⟩ := hkept.setTtl s.defaultTtl
      exact ⟨hkept', hsame.trans hhappened⟩
  | @launched es es' w' w'' sweep giveUp wake s m r d hw hr hset hw' hd =>
      obtain ⟨hnow, hkept, hhappened⟩ := hw.kept_lowered hk hw'
      rw [← hnow] at hkept ⊢
      obtain ⟨hkept', hsame⟩ := hkept.ping d.flight.payload
      exact ⟨hkept', hsame.trans hhappened⟩
  | landed hw hset => exact hw.kept_setTtl hk _
  | crashed hw => exact hw.kept_setTtl hk _
  | calledOff => exact hnothing
  | replied hbox httl =>
      rw [connection_proceed]
      exact hnothing
  | evicted httl =>
      rw [connection_proceed]
      exact hnothing
  | echoed hw hpong httl =>
      rw [connection_proceed]
      exact hw.kept hk
  | late hw ht httl =>
      rw [connection_proceed]
      exact hw.kept hk
  | hungUp hw => exact hw.kept hk
  | waited hw ht => exact hw.kept hk
  | rested => exact hnothing

theorem onward_of_proceed {w : World} {sweep next : Sweep} {hop : Hop}
    (h : (w.proceed sweep hop).1.sweep? = some next) :
    next = Sweep.onward sweep hop ∧ sweep.session.endsWith hop = false := by
  unfold proceed at h
  split at h
  · cases h
  · rename_i hgoes
    cases h
    exact ⟨rfl, by simpa using hgoes⟩

theorem Course.ne_opening {w : World} {phase : Phase} {es : Agenda} {turn : Turn}
    (hc : Course w phase es turn) : turn.1 ≠ .opening := by
  have hproceed : ∀ {w : World} {sweep : Sweep} {hop : Hop},
      (w.proceed sweep hop).1 ≠ .opening := by
    intro w sweep hop
    unfold proceed
    split <;> exact nofun
  cases hc <;> first | exact hproceed | exact nofun

theorem Course.equipped {w : World} {phase : Phase} {es : Agenda} {turn : Turn}
    (hc : Course w phase es turn)
    (h : ∀ sweep, phase.sweep? = some sweep → sweep.sender.Equipped w.connection.behaviour) :
    ∀ sweep, turn.1.sweep? = some sweep → sweep.sender.Equipped w.connection.behaviour := by
  have hreserved : ∀ {sweep : Sweep} {s : Sender} {r : Registry} {answer},
      phase.sweep? = some sweep →
      sweep.sender.reserve sweep.ttl w.now (Sender.attempts - 1) r = (s, answer) →
      s.Equipped w.connection.behaviour := by
    intro sweep s r answer hsweep hr
    rw [Sender.sender_of_reserve hr]
    exact ⟨(h sweep hsweep).flow, (h sweep hsweep).overhead⟩
  have hproceed : ∀ {w' : World} {sweep : Sweep} {hop : Hop},
      sweep.sender.Equipped w.connection.behaviour →
      ∀ next, (w'.proceed sweep hop).1.sweep? = some next →
        next.sender.Equipped w.connection.behaviour := by
    intro w' sweep hop hs next hnext
    obtain ⟨rfl, -⟩ := onward_of_proceed hnext
    exact hs
  intro next hnext
  cases hc with
  | opened hw hs hstart =>
      cases hnext
      exact hs.equipped
  | paused hw ht => exact h next hnext
  | collided hw hr => exact hproceed (hreserved rfl hr) next hnext
  | launched hw hr hset hw' hd =>
      cases hnext
      exact hreserved rfl hr
  | @landed es w' sweep d hw hset =>
      cases hnext
      have hsweep := h sweep rfl
      exact hsweep
  | replied hbox httl => exact hproceed (h _ rfl) next hnext
  | evicted httl => exact hproceed (h _ rfl) next hnext
  | echoed hw hpong httl => exact hproceed (h _ rfl) next hnext
  | late hw ht httl => exact hproceed (h _ rfl) next hnext
  | waited hw ht => exact h next hnext
  | refused id target hw ha => cases hnext
  | cancelled => cases hnext
  | unsent hw hr hw' => cases hnext
  | crashed hw => cases hnext
  | calledOff => cases hnext
  | hungUp hw => cases hnext
  | rested => cases hnext

end World

structure Trace.OnCourse (c : Config) (b : Behaviour) (now : Instant) (e : Engine) (t : Trace) :
    Prop where
  valid : t.Valid e
  sound : e.registry.Sound
  config : e.config = c
  behaviour : t.connection.behaviour = b
  kept : t.connection.Kept now
  equipped : ∀ sweep, t.phase.sweep? = some sweep → sweep.sender.Equipped b

namespace Trace.OnCourse

variable {c : Config} {b : Behaviour} {now : Instant} {e : Engine} {t : Trace}

theorem start (s : Setup) (now : Instant) (he : e.registry.Sound) :
    (s.start now).OnCourse e.config s.behaviour now e := by
  obtain ⟨hkept, -⟩ := Connection.kept_start s.behaviour now
  refine ⟨valid_start s e now, he, rfl, rfl, ⟨hkept.split, hkept.past, hkept.heard⟩, ?_⟩
  intro sweep hsweep
  cases hsweep

theorem wait (h : t.OnCourse c b now e) {later : Instant} (hl : now ≤ later) :
    t.OnCourse c b later e :=
  ⟨h.valid, h.sound, h.config, h.behaviour, h.kept.later hl, h.equipped⟩

theorem step (h : t.OnCourse c b now e) (hready : t.ready now e) :
    (t.step now e).1.OnCourse c b now (t.step now e).2 := by
  obtain ⟨es, hc⟩ := course_turn now h.valid.standing
  obtain ⟨hvalid, hconfig, ops, hr⟩ := h.valid.step now h.sound
  have hmove := move_turn now h.valid.standing
  have hopen : ∀ outcome at_, t.phase ≠ .finished outcome at_ := by
    intro outcome at_ hphase
    simp [ready, hphase] at hready
  have hint := hmove.intact h.sound h.valid.standing h.valid.sweeping hopen
  refine ⟨hvalid, hr ▸ h.sound.after ops, hconfig.trans h.config,
    hint.behaviour.trans h.behaviour, (hc.kept h.kept).1, ?_⟩
  have hequipped := hc.equipped (by rw [world, h.behaviour]; exact h.equipped)
  rw [world, h.behaviour] at hequipped
  exact hequipped

theorem happens (h : (t.step now e).1.OnCourse c b now (t.step now e).2)
    (hk : t.connection.Kept now) {es : Agenda}
    (hc : World.Course (t.world now e) t.phase es (t.turn now e)) {Q : Event → Prop}
    (hb : b.Brings Q) : ∀ x ∈ es, x.1 ≤ now ∧ Q x.2 := by
  have hhappened : (t.step now e).1.connection.happened = t.connection.happened ++ es :=
    (hc.kept hk).2
  have hpast := h.kept.past
  have hall := h.kept.brings (h.behaviour ▸ hb)
  rw [hhappened] at hpast hall
  exact fun x hx => ⟨hpast x (List.mem_append_right _ hx), hall x (List.mem_append_right _ hx)⟩

theorem allowed (h : (t.step now e).1.OnCourse c b now (t.step now e).2)
    (hk : t.connection.Kept now) {es : Agenda}
    (hc : World.Course (t.world now e) t.phase es (t.turn now e))
    {P : Registry.Operation → Prop} (ha : b.Allows P) : ∀ op ∈ es.operations, P op :=
  Agenda.allowed_operations fun x hx => (h.happens hk hc ha x hx).2

end Trace.OnCourse

theorem Fleet.Alone.onCourse {c : Config} {b : Behaviour} {P : Instant → Engine → Trace → Prop}
    (hact : ∀ now e t es, t.OnCourse c b now e → P now e t →
      World.Course (t.world now e) t.phase es (t.turn now e) →
      (t.step now e).1.OnCourse c b now (t.step now e).2 →
      P now (t.step now e).2 (t.step now e).1)
    (hwait : ∀ now later e t, t.ready now e = false → P now e t → P later e t) {f g : Fleet}
    (h : f.Alone fun now e t => t.OnCourse c b now e ∧ P now e t)
    (hr : Relation.ReflTransGen Step f g) :
    g.Alone fun now e t => t.OnCourse c b now e ∧ P now e t := by
  refine h.reaches ?_ ?_ hr
  · rintro now e t ⟨hcourse, hp⟩ hready
    obtain ⟨es, hc⟩ := Trace.course_turn now hcourse.valid.standing
    have hnext := hcourse.step hready
    exact ⟨hnext, hact now e t es hcourse hp hc hnext⟩
  · rintro now e t m ⟨hcourse, hp⟩ hnot -
    exact ⟨hcourse.wait (Nat.le_max_left ..), hwait now _ e t hnot hp⟩

end InbandTrace
