import InbandTrace.Proofs.Sender.Launch
import InbandTrace.Trace.Basic

namespace InbandTrace

namespace Session

theorem begin_of_idle {s : Session} (h : s.state = .idle) :
    s.begin = .ok { s with state := .probing s.firstTtl } := by
  simp [begin, transition, h, SessionState.allows]

theorem abort_of_open {s : Session} (h : s.state.isTerminal = false) :
    s.abort = .ok { s with state := .aborted } := by
  have hallow : s.state.allows .aborted = true := by
    cases hs : s.state <;> simp_all [SessionState.isTerminal, SessionState.allows]
  simp [abort, transition, hallow]

theorem transition_awaiting {s : Session} {ttl : UInt8} (h : s.state = .probing ttl) :
    s.transition (.awaitingResponse ttl) = .ok { s with state := .awaitingResponse ttl } := by
  simp [transition, h, SessionState.allows]

def recorded (s : Session) (hop : Hop) : Session :=
  { s with
    hops := s.hops ++ [hop]
    state := if hop.status = .timeout then .hopTimedOut hop.ttl else .hopRecorded hop.ttl }

theorem record_of_awaited {s : Session} {hop : Hop} (h : s.state = .awaitingResponse hop.ttl) :
    s.record hop = .ok (s.recorded hop) := by
  simp [record, awaited?, h, recorded]

def endsWith (s : Session) (hop : Hop) : Bool :=
  hop.reaches s.target || decide (s.maxHops ≤ hop.ttl)

theorem toNat_add_one_of_lt {a b : UInt8} (h : a < b) : (a + 1).toNat = a.toNat + 1 := by
  have hlt := UInt8.lt_iff_toNat_lt.mp h
  have hmax := b.toNat_lt
  rw [UInt8.toNat_add]
  simp only [UInt8.toNat_ofNat]
  omega

theorem toNat_next_of_not_endsWith {s : Session} {hop : Hop} (h : ¬s.endsWith hop) :
    (hop.ttl + 1).toNat = hop.ttl.toNat + 1 := by
  simp only [endsWith, Bool.or_eq_true, decide_eq_true_eq, not_or, UInt8.not_le] at h
  exact toNat_add_one_of_lt h.2

theorem advance_recorded (s : Session) (hop : Hop) :
    (s.recorded hop).advance = .ok { s with
      hops := s.hops ++ [hop]
      state := if s.endsWith hop then .completed else .probing (hop.ttl + 1) } := by
  have hstate : (s.recorded hop).state = .hopTimedOut hop.ttl ∨
      (s.recorded hop).state = .hopRecorded hop.ttl := by
    simp only [recorded]
    split <;> simp
  have hset : (s.recorded hop).settled? = some hop.ttl := by
    rcases hstate with h | h <;> simp [settled?, h]
  have hfol : (s.recorded hop).following hop.ttl =
      if s.endsWith hop then .completed else .probing (hop.ttl + 1) := by
    have hreached : (s.recorded hop).reached = hop.reaches s.target := by
      simp [reached, recorded]
    simp only [following, hreached]
    rfl
  have hallow : (s.recorded hop).state.allows
      (if s.endsWith hop then .completed else .probing (hop.ttl + 1)) = true := by
    split
    · rcases hstate with h | h <;> simp [h, SessionState.allows]
    · rename_i hopen
      have hnext := toNat_next_of_not_endsWith hopen
      rcases hstate with h | h <;> simp [h, SessionState.allows, hnext]
  simp only [advance, hset, transition, hfol, hallow, if_true]
  rfl

end Session

theorem Sender.flowOf_error {b : Behaviour} {e : TraceError} (h : Sender.flowOf b = .error e) :
    (∃ reason, e = .config reason) ∨ ∃ fault, e = .fault fault := by
  unfold flowOf at h
  cases hsrc : b.localAddress with
  | error fault =>
      simp [hsrc, orFault, bind, Except.bind] at h
      exact .inr ⟨fault, h.symm⟩
  | ok src =>
      cases hdst : b.peerAddress 0 with
      | error fault =>
          simp [hsrc, hdst, orFault, bind, Except.bind] at h
          exact .inr ⟨fault, h.symm⟩
      | ok dst =>
          simp only [hsrc, hdst, orFault, bind, Except.bind] at h
          split at h
          · cases h
          · cases h
            exact .inl ⟨_, rfl⟩

def Abort.ofRefusal : TraceError → Abort
  | .fault _ => .closed
  | e => .failed e

namespace World

abbrev Follows (w w' : World) : Prop := Evolves (fun _ => True) w w'

theorem giveUp_of_open {w : World} {s : Session} {abort : Abort}
    (h : s.state.isTerminal = false) :
    w.giveUp s abort = w.finish { s with state := .aborted } (some abort) := by
  simp [giveUp, h, Session.abort_of_open h]

theorem await_of_probing {w : World} {sweep : Sweep} {next : Session → Turn}
    (h : sweep.session.state = .probing sweep.ttl) :
    w.await sweep next =
      next { sweep.session with state := .awaitingResponse sweep.ttl } := by
  simp [await, Session.transition_awaiting h]

def Sweep.last (sweep : Sweep) (hop : Hop) : Session :=
  { sweep.session with hops := sweep.session.hops ++ [hop], state := .completed }

def Sweep.onward (sweep : Sweep) (hop : Hop) : Sweep :=
  { sweep with
    session := { sweep.session with
      hops := sweep.session.hops ++ [hop], state := .probing (hop.ttl + 1) }
    ttl := hop.ttl + 1 }

theorem conclude_of_awaited {w : World} {sweep : Sweep} {hop : Hop}
    (h : sweep.session.state = .awaitingResponse hop.ttl) :
    w.conclude sweep hop =
      if sweep.session.endsWith hop then w.finish (Sweep.last sweep hop) none
      else w.settling (Sweep.onward sweep hop) := by
  simp only [conclude, Session.record_of_awaited h, Session.advance_recorded]
  by_cases hends : sweep.session.endsWith hop
  · simp only [hends, if_true]
    rfl
  · simp only [hends, if_false, Bool.false_eq_true]
    rfl

theorem evolves_readSignals {P : Registry.Operation → Prop} (flight : Flight)
    (signals : List Signal) (w : World) : Evolves P w (readSignals flight signals w).2 := by
  have hinbox : ∀ (w : World) (left : List Signal),
      Evolves P w { w with connection := { w.connection with inbox := left } } := by
    intro w left
    exact ⟨rfl, rfl, rfl, rfl, rfl, rfl, List.suffix_refl _, [], by simp, rfl⟩
  induction signals generalizing w with
  | nil => exact hinbox w []
  | cons signal rest ih =>
      cases signal with
      | closed => exact hinbox w rest
      | pong payload =>
          simp only [readSignals]
          split
          · have hq : ∀ answer w₁, w.query = (answer, w₁) → Evolves P w w₁ := by
              intro answer w₁ h
              have := w.evolves_query (P := P)
              rwa [h] at this
            split
            · rename_i info w₁ h
              split
              · exact (hq _ _ h).trans (hinbox w₁ rest)
              · exact (hq _ _ h).trans (ih w₁)
            · rename_i fault w₁ h
              exact (hq _ _ h).trans (ih w₁)
          · exact ih w

theorem inbox_readSignals {flight : Flight} {signals : List Signal} {w w' : World}
    (h : readSignals flight signals w = (.nothing, w')) : w'.connection.inbox = [] := by
  induction signals generalizing w with
  | nil =>
      cases h
      rfl
  | cons signal rest ih =>
      cases signal with
      | closed => cases h
      | pong payload =>
          simp only [readSignals] at h
          split at h
          · split at h
            · split at h
              · cases h
              · exact ih h
            · exact ih h
          · exact ih h

theorem agenda_readSignals (flight : Flight) (signals : List Signal) (w : World) :
    (readSignals flight signals w).2.connection.agenda = w.connection.agenda := by
  induction signals generalizing w with
  | nil => rfl
  | cons signal rest ih =>
      cases signal with
      | closed => rfl
      | pong payload =>
          simp only [readSignals]
          split
          · split
            · rename_i info w₁ h
              have hw : w₁.connection.agenda = w.connection.agenda := by
                rw [show w₁ = w.query.2 by rw [h]]
                rfl
              split
              · exact hw
              · rw [ih, hw]
            · rename_i fault w₁ h
              have hw : w₁.connection.agenda = w.connection.agenda := by
                rw [show w₁ = w.query.2 by rw [h]]
                rfl
              rw [ih, hw]
          · exact ih w

theorem evolves_listen {P : Registry.Operation → Prop} (w : World) (flight : Flight)
    (ha : w.Allowed P) : Evolves P w (w.listen flight).2 :=
  (w.evolves_catchUp ha).trans (evolves_readSignals _ _ _)

theorem agenda_listen (w : World) (flight : Flight) :
    (w.listen flight).2.connection.agenda =
      w.connection.agenda.dropWhile fun e => decide (e.1 ≤ w.now) := by
  rw [listen, agenda_readSignals, agenda_catchUp]

theorem evolves_start {P : Registry.Operation → Prop} (w : World) (ha : w.Allowed P) :
    Evolves P w (Sender.start w).2 := by
  have hev := w.evolves_statistics ha
  unfold Sender.start
  split
  · exact .refl w
  · split
    · rename_i h
      rwa [h] at hev
    · rename_i h
      rw [h] at hev
      split <;> exact hev

theorem follows_of_start {w w' : World} {answer : Except TraceError Sender}
    (h : Sender.start w = (answer, w')) : w.Follows w' := by
  have hevolves := w.evolves_start w.allowed_true
  rwa [h] at hevolves

theorem start_error {w w' : World} {e : TraceError} (h : Sender.start w = (.error e, w')) :
    (∃ reason, e = .config reason) ∨ ∃ fault, e = .fault fault := by
  unfold Sender.start at h
  split at h
  · rename_i e' hflow
    cases h
    exact Sender.flowOf_error hflow
  · split at h
    · cases h
      exact .inr ⟨_, rfl⟩
    · split at h
      · cases h
        exact .inr ⟨_, rfl⟩
      · cases h

inductive Heard (w : World) (target : Net.Ip) (flight : Flight) : Hop → Prop where
  | replied {hop : Hop} (h : w.engine.registry.mailbox? flight.mailbox = some (.holding hop)) :
      Heard w target flight hop
  | evicted (h : w.engine.registry.mailbox? flight.mailbox ≠ some .waiting) :
      Heard w target flight (.timedOut flight.ttl)
  | echoed :
      Heard w target flight (.resolved flight.ttl target (w.now - flight.sentAt) .destination)
  | late (h : flight.deadline ≤ w.now) : Heard w target flight (.timedOut flight.ttl)

def awaited (sweep : Sweep) : Sweep :=
  { sweep with session := { sweep.session with state := .awaitingResponse sweep.ttl } }

def begun (s : Session) (sender : Sender) : Sweep :=
  ⟨{ s with state := .probing s.firstTtl }, sender, s.firstTtl⟩

end World

namespace Phase

def sweep? : Phase → Option Sweep
  | .settling sweep _ _ | .writing sweep _ | .awaiting sweep _ => some sweep
  | _ => none

/-- The session stands where the trace is, and the mailbox of its probe is for the TTL probed. -/
def Standing (r : Registry) : Phase → Prop
  | .settling sweep _ _ => sweep.session.state = .probing sweep.ttl
  | .writing sweep d =>
      sweep.session.state = .probing sweep.ttl ∧ d.flight.ttl = sweep.ttl ∧
        r.Assigned d.flight.mailbox fun e => e.ttl = sweep.ttl
  | .awaiting sweep flight =>
      sweep.session.state = .awaitingResponse sweep.ttl ∧ flight.ttl = sweep.ttl ∧
        r.Assigned flight.mailbox fun e => e.ttl = sweep.ttl
  | _ => True

theorem Standing.isOpen {r : Registry} {phase : Phase} {sweep : Sweep} (h : phase.Standing r)
    (hs : phase.sweep? = some sweep) : sweep.session.state.isTerminal = false := by
  cases phase with
  | opening => cases hs
  | settling sw g k =>
      cases hs
      simp only [Standing] at h
      simp [h, SessionState.isTerminal]
  | writing sw d =>
      cases hs
      simp only [Standing] at h
      simp [h.1, SessionState.isTerminal]
  | awaiting sw f =>
      cases hs
      simp only [Standing] at h
      simp [h.1, SessionState.isTerminal]
  | finished o t => cases hs

end Phase

namespace World

inductive Move (w : World) : Phase → Turn → Prop where
  | opened {w' : World} {id : String} {sender : Sender} (h : Sender.start w = (.ok sender, w')) :
      Move w .opening (w'.settling (begun (w'.sessionTo id sender.flow.dst.ip) sender))
  | refused {w' : World} (id : String) (target : Net.Ip) {e : TraceError}
      (h : Sender.start w = (.error e, w')) :
      Move w .opening
        (w'.finish { w'.sessionTo id target with state := .aborted } (some (.ofRefusal e)))
  | paused {w' : World} {sweep : Sweep} {giveUp wake : Instant} (hw : w.Follows w')
      (ht : w.now < giveUp) :
      Move w (.settling sweep giveUp wake)
        (.settling sweep giveUp (w.now + Settle.interval), w')
  | launched {sweep : Sweep} {giveUp wake : Instant} {d : Departure} {s : Sender}
      {w₀ w₁ w₂ w' : World} {r : Registry} (hw : w.Follows w₀)
      (hl : Sender.Launched (fun _ => True) sweep.sender w₀ sweep.ttl d s w₁ r w₂ w') :
      Move w (.settling sweep giveUp wake) (.writing { sweep with sender := s } d, w')
  | collided {w' : World} {sweep : Sweep} {giveUp wake : Instant} {s : Sender}
      (hw : w.Follows w') (hs : s = { sweep.sender with serial := s.serial }) :
      Move w (.settling sweep giveUp wake)
        (w'.conclude { awaited sweep with sender := s } (.timedOut sweep.ttl))
  | landed {w' : World} {sweep : Sweep} {d : Departure} (hw : w.Follows w') :
      Move w (.writing sweep d) (.awaiting (awaited sweep) d.flight, w')
  | heard {w' : World} {sweep : Sweep} {flight : Flight} {hop : Hop} (hw : w.Follows w')
      (hh : Heard w sweep.session.target flight hop) :
      Move w (.awaiting sweep flight) (w'.conclude sweep hop)
  | waited {w' : World} {sweep : Sweep} {flight : Flight} (hw : w.Follows w')
      (hempty : w.engine.registry.mailbox? flight.mailbox = some .waiting)
      (ht : w.now < flight.deadline) (hinbox : w'.connection.inbox = [])
      (hagenda : w'.connection.agenda =
        w.connection.agenda.dropWhile fun e => decide (e.1 ≤ w.now)) :
      Move w (.awaiting sweep flight) (.awaiting sweep flight, w')
  | aborted {w' : World} {phase : Phase} {sweep : Sweep} {abort : Abort}
      (hp : phase.sweep? = some sweep) (hw : w.Follows w')
      (ha : abort = .closed ∨ abort = .cancelled) :
      Move w phase (w'.finish { sweep.session with state := .aborted } (some abort))
  | rested {outcome : Except TraceError TraceResult} {at_ : Instant} :
      Move w (.finished outcome at_) (.finished outcome at_, w)

theorem move_opening (w : World) (id : String) : Move w .opening (w.opening id) := by
  unfold opening
  split
  · rename_i e w' h
    have hrefused := Move.refused id w'.fallbackTarget h
    rw [giveUp_of_open rfl]
    cases e <;> exact hrefused
  · rename_i sender w' h
    have hidle : (w'.sessionTo id sender.flow.dst.ip).state = .idle := rfl
    simp only [Session.begin_of_idle hidle]
    exact .opened h

theorem move_aborted {w w' : World} {r : Registry} {phase : Phase} {sweep : Sweep}
    {abort : Abort} (hstand : phase.Standing r) (hp : phase.sweep? = some sweep)
    (hw : w.Follows w') (ha : abort = .closed ∨ abort = .cancelled) :
    Move w phase (w'.giveUp sweep.session abort) := by
  rw [giveUp_of_open (hstand.isOpen hp)]
  exact .aborted hp hw ha

theorem follows_forget (w : World) (token : Token) (mailbox : Nat) :
    w.Follows (w.forget token mailbox) :=
  w.evolves_forget trivial trivial

theorem move_probe {w w₀ : World} {sweep : Sweep} {giveUp wake : Instant}
    (hstate : sweep.session.state = .probing sweep.ttl) (hw : w.Follows w₀) :
    Move w (.settling sweep giveUp wake) (w₀.probe sweep) := by
  unfold probe
  split
  · rename_i d s w' h
    obtain ⟨w₁, r, w₂, hl⟩ := Sender.launch_ok w₀.allowed_true h trivial
    exact .launched hw hl
  · rename_i token s w' h
    obtain ⟨hev, hs, -⟩ := Sender.launch_error (fun _ => trivial) h
    rw [await_of_probing hstate]
    exact .collided (hw.trans hev) hs
  · rename_i fault s w' h
    obtain ⟨hev, -, -⟩ := Sender.launch_error (fun _ => trivial) h
    exact move_aborted (r := .empty) hstate rfl (hw.trans hev) (.inl rfl)
  · rename_i e s w' htoken hfault h
    obtain ⟨-, -, ⟨token, rfl⟩ | ⟨fault, rfl⟩⟩ := Sender.launch_error (fun _ => trivial) h
    · exact absurd rfl (htoken token)
    · exact absurd rfl (hfault fault)

theorem move_probeWhenQuiet {w : World} {sweep : Sweep} {giveUp wake : Instant}
    (hstate : sweep.session.state = .probing sweep.ttl) :
    Move w (.settling sweep giveUp wake) (w.probeWhenQuiet sweep giveUp) := by
  have hw : w.Follows w.statistics.2 := w.evolves_statistics w.allowed_true
  simp only [probeWhenQuiet]
  split
  · exact move_probe hstate hw
  · rename_i h
    simp only [Bool.or_eq_true, decide_eq_true_eq, not_or, Nat.not_le] at h
    rw [hw.now] at h ⊢
    exact .paused hw h.2

theorem move_written {w : World} {r : Registry} {sweep : Sweep} {d : Departure}
    (hstand : Phase.Standing r (.writing sweep d)) :
    Move w (.writing sweep d) (w.written sweep d) := by
  have hw : w.Follows (sweep.sender.land w d).2 :=
    Sender.evolves_land _ _ _ w.allowed_true trivial trivial
  unfold written
  split
  · rename_i fault w' h
    rw [h] at hw
    exact move_aborted hstand rfl hw (.inl rfl)
  · rename_i flight w' h
    rw [h] at hw
    rw [await_of_probing hstand.1, Sender.land_ok h]
    exact .landed hw

theorem receive_hop {w w' : World} {mailbox : Nat} {hop : Hop}
    (h : w.receive mailbox = (.hop hop, w')) :
    w.engine.registry.mailbox? mailbox = some (.holding hop) := by
  simp only [receive, Prod.mk.injEq, Registry.receive] at h
  split at h
  · exact absurd h.1 (by simp)
  · rename_i hop' hbox
    simp only [Receipt.hop.injEq] at h
    rw [hbox, h.1]
  · exact absurd h.1 (by simp)

theorem receive_closed {w w' : World} {mailbox : Nat}
    (h : w.receive mailbox = (.closed, w')) :
    w.engine.registry.mailbox? mailbox ≠ some .waiting := by
  intro hbox
  simp [receive, Registry.receive, hbox] at h

theorem receive_empty {w w' : World} {mailbox : Nat} (h : w.receive mailbox = (.empty, w')) :
    w.engine.registry.mailbox? mailbox = some .waiting ∧ w' = w := by
  simp only [receive, Prod.mk.injEq, Registry.receive] at h
  split at h
  · rename_i hbox
    exact ⟨hbox, h.2.symm⟩
  · exact absurd h.1 (by simp)
  · exact absurd h.1 (by simp)

theorem move_look {w : World} {r : Registry} {sweep : Sweep} {flight : Flight}
    (hstand : Phase.Standing r (.awaiting sweep flight)) :
    Move w (.awaiting sweep flight) (w.look sweep flight) := by
  have hr : w.Follows (w.receive flight.mailbox).2 := w.evolves_receive trivial
  unfold look
  split
  · rename_i hop w' h
    rw [h] at hr
    exact .heard (hr.trans (follows_forget ..)) (.replied (receive_hop h))
  · rename_i w' h
    rw [h] at hr
    exact .heard (hr.trans (follows_forget ..)) (.evicted (receive_closed h))
  · rename_i w' h
    obtain ⟨hempty, rfl⟩ := receive_empty h
    have hl : w'.Follows (w'.listen flight).2 := w'.evolves_listen flight w'.allowed_true
    split
    · rename_i w₁ hsign
      rw [hsign] at hl
      rw [hl.now]
      exact .heard (hl.trans (follows_forget ..)) .echoed
    · rename_i w₁ hsign
      rw [hsign] at hl
      exact move_aborted hstand rfl (hl.trans (follows_forget ..)) (.inl rfl)
    · rename_i w₁ hsign
      rw [hsign] at hl
      rw [hl.now]
      split
      · rename_i hlate
        exact .heard (hl.trans (follows_forget ..)) (.late hlate)
      · rename_i hearly
        have hagenda := w'.agenda_listen flight
        rw [hsign] at hagenda
        exact .waited hl hempty (Nat.lt_of_not_le hearly) (inbox_readSignals hsign) hagenda

end World

namespace Trace

theorem move_turn {t : Trace} {e : Engine} (now : Instant) (h : t.phase.Standing e.registry) :
    World.Move (t.world now e) t.phase (t.turn now e) := by
  unfold turn
  cases hphase : t.phase with
  | opening => exact World.move_opening _ _
  | settling sweep giveUp wake =>
      rw [hphase] at h
      simp only
      split
      · exact World.move_aborted h rfl (.refl _) (.inr rfl)
      · exact World.move_probeWhenQuiet h
  | writing sweep d =>
      rw [hphase] at h
      exact World.move_written h
  | awaiting sweep flight =>
      rw [hphase] at h
      simp only
      split
      · exact World.move_aborted h rfl (World.follows_forget ..) (.inr rfl)
      · exact World.move_look h
  | finished outcome at_ => exact .rested

end Trace

end InbandTrace
