import InbandTrace.Proofs.Sender.Swept
import InbandTrace.Proofs.Trace.Wire

namespace InbandTrace

def Flight.Confirmed (flight : Flight) (answer : Except Fault TcpInfo) : Prop :=
  ∃ info, answer = .ok info ∧ info.retransmitted = flight.retransmitted

namespace World

def asked : Nat → World → World
  | 0, w => w
  | n + 1, w => asked n w.query.2

def withInbox (w : World) (inbox : List Signal) : World :=
  { w with connection := { w.connection with inbox := inbox } }

def candidates (flight : Flight) (signals : List Signal) : Nat :=
  signals.count (.pong flight.payload)

/-- No close is among these signals, and no pong that proves that the probe arrived. -/
structure Passes (w : World) (flight : Flight) (signals : List Signal) : Prop where
  isOpen : .closed ∉ signals
  stale : ∀ k < candidates flight signals, ¬ flight.Confirmed (w.asked k).query.1

/-- After signals that prove nothing there is a pong with the payload of the probe, and right after
it the counter of retransmissions can be read and stands at `n`. -/
def Hears (w : World) (flight : Flight) (n : Nat) (signals : List Signal) : Prop :=
  ∃ before after info, signals = before ++ .pong flight.payload :: after ∧
    w.Passes flight before ∧ (w.asked (candidates flight before)).query.1 = .ok info ∧
    info.retransmitted = n

variable {w : World} {flight : Flight} {signals before rest : List Signal} {payload : List UInt8}

section

variable (w : World) (n : Nat)

@[simp]
theorem engine_asked : (w.asked n).engine = w.engine := by
  induction n generalizing w with
  | zero => rfl
  | succ n ih => exact ih w.query.2

@[simp]
theorem now_asked : (w.asked n).now = w.now := by
  induction n generalizing w with
  | zero => rfl
  | succ n ih => exact ih w.query.2

end

theorem counters_of_query {info : TcpInfo} (h : w.query.1 = .ok info) :
    w.query.2.connection.counters = info := by
  simp only [query, Connection.query] at h ⊢
  split at h
  · cases h
  · cases h
    rfl

theorem passes_nil : w.Passes flight [] := ⟨nofun, nofun⟩

theorem passes_cons_of_foreign (hp : payload ≠ flight.payload) :
    w.Passes flight (.pong payload :: rest) ↔ w.Passes flight rest := by
  have hcount : candidates flight (.pong payload :: rest) = candidates flight rest := by
    simp [candidates, hp]
  constructor
  · rintro ⟨hopen, hstale⟩
    exact ⟨fun h => hopen (List.mem_cons_of_mem _ h), hcount ▸ hstale⟩
  · rintro ⟨hopen, hstale⟩
    exact ⟨by simpa using hopen, hcount ▸ hstale⟩

theorem passes_cons_own :
    w.Passes flight (.pong flight.payload :: rest) ↔
      ¬ flight.Confirmed w.query.1 ∧ w.query.2.Passes flight rest := by
  have hcount : candidates flight (.pong flight.payload :: rest) = candidates flight rest + 1 := by
    simp [candidates]
  constructor
  · rintro ⟨hopen, hstale⟩
    rw [hcount] at hstale
    refine ⟨hstale 0 (Nat.succ_pos _), fun h => hopen (List.mem_cons_of_mem _ h), fun k hk => ?_⟩
    exact hstale (k + 1) (Nat.succ_lt_succ hk)
  · rintro ⟨hfirst, hopen, hstale⟩
    refine ⟨by simpa using hopen, fun k hk => ?_⟩
    rw [hcount] at hk
    cases k with
    | zero => exact hfirst
    | succ k => exact hstale k (Nat.lt_of_succ_lt_succ hk)

theorem readSignals_cons_of_foreign (hp : payload ≠ flight.payload) :
    readSignals flight (.pong payload :: rest) w = readSignals flight rest w := by
  rw [readSignals, if_neg hp]

theorem readSignals_cons_own (w : World) (flight : Flight) (rest : List Signal) :
    (flight.Confirmed w.query.1 ∧ readSignals flight (.pong flight.payload :: rest) w =
        (.echoed, w.query.2.withInbox rest)) ∨
      (¬ flight.Confirmed w.query.1 ∧ readSignals flight (.pong flight.payload :: rest) w =
        readSignals flight rest w.query.2) := by
  rw [readSignals, if_pos rfl]
  cases hq : w.query with
  | mk answer w₁ =>
      cases answer with
      | error fault =>
          refine .inr ⟨?_, rfl⟩
          rintro ⟨info, hinfo, -⟩
          cases hinfo
      | ok info =>
          by_cases hsame : info.retransmitted = flight.retransmitted
          · exact .inl ⟨⟨info, rfl, hsame⟩, if_pos hsame⟩
          · refine .inr ⟨?_, if_neg hsame⟩
            rintro ⟨info', hinfo, hsame'⟩
            cases hinfo
            exact hsame hsame'

theorem readSignals_append (h : w.Passes flight before) (rest : List Signal) :
    readSignals flight (before ++ rest) w =
      readSignals flight rest (w.asked (candidates flight before)) := by
  induction before generalizing w with
  | nil => rfl
  | cons signal before ih =>
      cases signal with
      | closed => exact absurd List.mem_cons_self h.isOpen
      | pong payload =>
          by_cases hp : payload = flight.payload
          · subst hp
            obtain ⟨hfirst, hbefore⟩ := passes_cons_own.mp h
            have hread := readSignals_cons_own w flight (before ++ rest)
            rw [List.cons_append, (hread.resolve_left fun hc => hfirst hc.1).2, ih hbefore]
            simp [candidates, asked]
          · rw [List.cons_append, readSignals_cons_of_foreign hp,
              ih ((passes_cons_of_foreign hp).mp h)]
            simp [candidates, hp]

theorem readSignals_of_passes (h : w.Passes flight signals) :
    readSignals flight signals w =
      (.nothing, (w.asked (candidates flight signals)).withInbox []) := by
  have hread := readSignals_append h []
  rwa [List.append_nil] at hread

theorem readSignals_of_hears (h : w.Hears flight flight.retransmitted signals) :
    ∃ w' : World, readSignals flight signals w = (.echoed, w') ∧ w'.now = w.now ∧
      w'.engine = w.engine := by
  obtain ⟨before, after, info, rfl, hpass, hinfo, hsame⟩ := h
  rw [readSignals_append hpass]
  obtain ⟨-, hread⟩ := (readSignals_cons_own (w.asked (candidates flight before)) flight
    after).resolve_right fun hc => hc.1 ⟨info, hinfo, hsame⟩
  refine ⟨_, hread, ?_, ?_⟩
  · exact now_asked w _
  · exact engine_asked w _

theorem hears_of_echoed (h : (readSignals flight signals w).1 = .echoed) :
    w.Hears flight flight.retransmitted signals ∧
      (readSignals flight signals w).2.connection.counters.retransmitted =
        flight.retransmitted := by
  induction signals generalizing w with
  | nil => cases h
  | cons signal rest ih =>
      cases signal with
      | closed => cases h
      | pong payload =>
          by_cases hp : payload = flight.payload
          · subst hp
            rcases readSignals_cons_own w flight rest with
              ⟨⟨info, hinfo, hsame⟩, hread⟩ | ⟨hfirst, hread⟩
            · refine ⟨⟨[], rest, info, rfl, passes_nil, hinfo, hsame⟩, ?_⟩
              rw [hread, ← hsame, ← counters_of_query hinfo]
              rfl
            · rw [hread] at h ⊢
              obtain ⟨⟨before, after, info, rfl, hpass, hinfo, hsame⟩, hcounter⟩ := ih h
              refine ⟨⟨.pong flight.payload :: before, after, info, rfl,
                passes_cons_own.mpr ⟨hfirst, hpass⟩, ?_, hsame⟩, hcounter⟩
              simpa [candidates, asked] using hinfo
          · rw [readSignals_cons_of_foreign hp] at h ⊢
            obtain ⟨⟨before, after, info, rfl, hpass, hinfo, hsame⟩, hcounter⟩ := ih h
            refine ⟨⟨.pong payload :: before, after, info, rfl,
              (passes_cons_of_foreign hp).mpr hpass, ?_, hsame⟩, hcounter⟩
            simpa [candidates, hp] using hinfo

theorem setTtl_frame (w : World) (ttl : Nat) :
    (w.setTtl ttl).2.connection.counters = w.connection.counters ∧
      (w.setTtl ttl).2.connection.agenda = w.connection.agenda := by
  simp only [setTtl, Connection.setTtl]
  split <;> exact ⟨rfl, rfl⟩

theorem sends_of_transmit {s : Sender} {w w' : World} {ttl : UInt8} {n m : Nat} {d : Departure}
    (hquiet : w.Quiet) (h : s.transmit w ttl n m = (.ok d, w')) :
    d.flight = ⟨s.token, ttl, w.now, w.now + s.hopTimeout, Payload.bytes s.serial ttl, n, m⟩ ∧
      w'.connection.counters = w.connection.counters ∧
      w'.engine.registry =
        (w.engine.registry.restamp s.token w.now (w.now + s.hopTimeout)).2 := by
  obtain ⟨hcounters, hagenda⟩ := w.setTtl_frame ttl.toNat
  rw [transmit_eq] at h
  cases hset : w.setTtl ttl.toNat with
  | mk refused w₁ =>
      obtain rfl : w₁ = (w.setTtl ttl.toNat).2 := by rw [hset]
      rw [hset] at h
      cases refused with
      | some fault => cases h
      | none =>
          -- Setting the TTL takes no time, so nothing has come due since the statistics were read.
          have hstill : ((w.setTtl ttl.toNat).2.stamped s).Quiet := fun x hx =>
            hquiet x (hagenda ▸ hx)
          simp only [catchUp_of_quiet hstill, depart] at h
          split at h
          · cases h
          · cases h
            exact ⟨rfl, hcounters, rfl⟩

theorem sends_of_launch {s s' : Sender} {w w' : World} {ttl : UInt8} {d : Departure}
    (hord : w.connection.agenda.Ordered) (h : s.launch w ttl = (.ok d, s', w')) :
    d.flight.retransmitted = Sender.retransmitted w.statistics.1 ∧
      w'.connection.counters = w.statistics.2.connection.counters ∧
      w.statistics.2.engine.registry.register d.flight.token d.flight.ttl d.flight.sentAt
        d.flight.deadline = some (d.flight.mailbox, w'.engine.registry) := by
  have hquiet : w.statistics.2.Quiet := quiet_catchUp hord
  cases hr : s.reserve ttl w.statistics.2.now (Sender.attempts - 1)
      w.statistics.2.engine.registry with
  | mk s₁ reserved =>
      cases reserved with
      | error token =>
          simp only [Sender.launch, hr] at h
          cases h
      | ok reserved =>
          obtain ⟨m, r⟩ := reserved
          cases hsent : s₁.transmit (w.statistics.2.withRegistry r) ttl
              (Sender.retransmitted w.statistics.1) m with
          | mk answer w₂ =>
              rw [Sender.launch_of_transmit rfl hr hsent] at h
              cases answer with
              | error fault => cases h
              | ok d₁ =>
                  cases h
                  obtain ⟨hflight, hcounters, hregistry⟩ :=
                    sends_of_transmit (w := w.statistics.2.withRegistry r) hquiet hsent
                  obtain ⟨hs, hreg⟩ := Sender.reserve_ok hr
                  have htime : s'.hopTimeout = s.hopTimeout := by rw [hs]
                  rw [← htime] at hreg
                  refine ⟨by rw [hflight], hcounters, ?_⟩
                  rw [hregistry, hflight]
                  exact hreg.trans (congrArg (fun r => some (m, r))
                    (Registry.restamp_of_register hreg).symm)

theorem launch_of_probe {w w' : World} {sweep next : Sweep} {d : Departure}
    (hstate : sweep.session.state = .probing sweep.ttl)
    (h : w.probe sweep = (.writing next d, w')) :
    ∃ s, sweep.sender.launch w sweep.ttl = (.ok d, s, w') := by
  have hopen : sweep.session.state.isTerminal = false := by
    rw [hstate]
    rfl
  unfold probe at h
  split at h
  · rename_i d₁ s₁ w₁ hlaunch
    cases h
    exact ⟨s₁, hlaunch⟩
  · rw [await_of_probing hstate, conclude_of_awaited rfl] at h
    split at h <;> cases h
  · rw [giveUp_of_open hopen] at h
    cases h
  · rw [giveUp_of_open hopen] at h
    cases h

end World

theorem Trace.sends_of_turn {t : Trace} {now : Instant} {e : Engine} {w : World}
    {sweep next : Sweep} {giveUp wake : Instant} {d : Departure}
    (hord : t.connection.agenda.Ordered) (hstand : t.phase.Standing e.registry)
    (hphase : t.phase = .settling sweep giveUp wake) (h : t.turn now e = (.writing next d, w)) :
    let asked := (t.world now e).statistics.2.statistics
    d.flight.retransmitted = Sender.retransmitted asked.1 ∧
      w.connection.counters = asked.2.connection.counters ∧
      asked.2.engine.registry.register d.flight.token d.flight.ttl d.flight.sentAt
        d.flight.deadline = some (d.flight.mailbox, w.engine.registry) := by
  have hopen := hstand.isOpen (by rw [hphase, Phase.sweep?])
  rw [hphase] at hstand
  simp only [turn, hphase] at h
  split at h
  · rw [World.giveUp_of_open hopen] at h
    cases h
  · simp only [World.probeWhenQuiet] at h
    split at h
    · obtain ⟨s, hlaunch⟩ := World.launch_of_probe hstand h
      exact World.sends_of_launch
        (hord.suffix ⟨_, ((t.world now e).lapse_statistics).agenda.symm⟩) hlaunch
    · cases h

end InbandTrace
