import InbandTrace.Proofs.Sender.Echo
import InbandTrace.Proofs.Trace.Elapsed
import InbandTrace.Proofs.Trace.Ending
import InbandTrace.Proofs.Trace.Payload

namespace InbandTrace

def Phase.target? : Phase → Option Net.Ip
  | .opening => none
  | .settling sweep _ _ | .writing sweep _ | .awaiting sweep _ => some sweep.session.target
  | .finished (.ok r) _ => some r.target
  | .finished (.error e) _ => e.partial?.map TraceResult.target

namespace World

variable {w : World} {phase : Phase} {es : Agenda} {turn : Turn}

@[simp]
theorem target?_proceed (w : World) (sweep : Sweep) (hop : Hop) :
    (w.proceed sweep hop).1.target? = some sweep.session.target := by
  unfold proceed
  split <;> rfl

theorem Course.target (hc : Course w phase es turn) {target : Net.Ip}
    (h : turn.1.target? = some target) : phase.target? = some target ∨ turn.1.hops = [] := by
  cases hc with
  | opened hw hs hstart => exact .inr rfl
  | refused id target hw ha => rcases ha with rfl | ⟨reason, rfl⟩ <;> exact .inr rfl
  | cancelled => exact .inl h
  | paused hw htime => exact .inl h
  | collided hw hr =>
      rw [target?_proceed] at h
      exact .inl h
  | unsent hw hr hw' => exact .inl h
  | launched hw hr hset hw' hd => exact .inl h
  | landed hw hset => exact .inl h
  | crashed hw => exact .inl h
  | calledOff => exact .inl h
  | replied hbox httl =>
      rw [target?_proceed] at h
      exact .inl h
  | evicted httl =>
      rw [target?_proceed] at h
      exact .inl h
  | echoed hw hpong httl =>
      rw [target?_proceed] at h
      exact .inl h
  | late hw hlate httl =>
      rw [target?_proceed] at h
      exact .inl h
  | hungUp hw => exact .inl h
  | waited hw htime => exact .inl h
  | rested => exact .inl h

variable {sweep : Sweep} {flight : Flight}

theorem look_of_waiting (h : w.engine.registry.mailbox? flight.mailbox = some .waiting)
    (sweep : Sweep) :
    w.look sweep flight = match w.listen flight with
      | (.echoed, w') =>
          (w'.forget flight.token flight.mailbox).conclude sweep
            (.resolved flight.ttl sweep.session.target (w'.now - flight.sentAt) .destination)
      | (.closed, w') => (w'.forget flight.token flight.mailbox).giveUp sweep.session .closed
      | (.nothing, w') =>
          if flight.deadline ≤ w'.now then
            (w'.forget flight.token flight.mailbox).conclude sweep (.timedOut flight.ttl)
          else (.awaiting sweep flight, w') := by
  have hread : w.receive flight.mailbox = (.empty, w) := by
    simp [receive, Registry.receive, h, withRegistry]
  cases hlisten : w.listen flight with
  | mk sign w' => cases sign <;> simp only [look, hread, hlisten]

theorem isDue_of_catchUp (hempty : w.connection.inbox = []) (h : w.catchUp.connection.inbox ≠ []) :
    w.connection.isDue w.now := by
  rw [catchUp, inbox_settleAgenda, hempty, List.nil_append] at h
  cases hdue : w.connection.agenda with
  | nil => simp [hdue, Agenda.signals] at h
  | cons x rest =>
      by_cases hx : x.1 ≤ w.now
      · simp [Connection.isDue, hdue, hx]
      · simp [hdue, hx, Agenda.signals] at h

theorem eq_of_hops_conclude (hstate : sweep.session.state = .awaitingResponse sweep.ttl)
    {hop hop' : Hop} (httl : hop'.ttl = sweep.ttl)
    (h : (w.conclude sweep hop').1.hops = sweep.session.hops ++ [hop]) : hop' = hop := by
  rw [conclude_eq_proceed (hstate.trans (by rw [httl])), hops_proceed] at h
  exact List.singleton_inj.mp (List.append_cancel_left h)

theorem hops_look (hstand : Phase.Standing w.engine.registry (.awaiting sweep flight)) {hop : Hop}
    (h : (w.look sweep flight).1.hops = sweep.session.hops ++ [hop]) (hr : hop.responder ≠ none) :
    w.engine.registry.mailbox? flight.mailbox = some (.holding hop) ∨
      (w.listen flight).1 = .echoed ∧
        (w.look sweep flight).2.connection = (w.listen flight).2.connection ∧
        hop = .resolved flight.ttl sweep.session.target (w.now - flight.sentAt) .destination := by
  have hopen := hstand.isOpen rfl
  obtain ⟨hstate, httl, hass⟩ := hstand
  have hlost : ∀ w' : World, (w'.conclude sweep (.timedOut flight.ttl)).1.hops ≠
      sweep.session.hops ++ [hop] := by
    intro w' hhops
    obtain rfl := eq_of_hops_conclude hstate httl hhops
    exact hr rfl
  cases hread : w.receive flight.mailbox with
  | mk receipt w' =>
      cases receipt with
      | hop hop' =>
          have hbox := receive_hop hread
          obtain ⟨e, ip, t, kind, he, hhop'⟩ := hass.hop _ hbox
          rw [look, hread] at h
          obtain rfl := eq_of_hops_conclude hstate (by rw [hhop']; exact he) h
          exact .inl hbox
      | closed =>
          rw [look, hread] at h
          exact absurd h (hlost _)
      | empty =>
          obtain ⟨hbox, rfl⟩ := receive_empty hread
          have hnow := (w'.lapse_listen flight).now
          rw [look_of_waiting hbox] at h ⊢
          cases hlisten : w'.listen flight with
          | mk sign w₁ =>
              rw [hlisten] at h
              replace hnow : w₁.now = w'.now := by rw [← hnow, hlisten]
              cases sign with
              | echoed =>
                  obtain rfl := eq_of_hops_conclude hstate httl h
                  refine .inr ⟨rfl, ?_, by rw [hnow]⟩
                  dsimp only
                  rw [conclude_eq_proceed (hstate.trans (by rw [← httl]; rfl)), connection_proceed]
                  rfl
              | closed =>
                  simp only [giveUp_of_open hopen] at h
                  exact absurd h.symm (by simp [finish, Phase.hops, Abort.error, TraceError.partial?, Session.freeze])
              | nothing =>
                  simp only at h
                  split at h
                  · exact absurd h (hlost _)
                  · exact absurd h.symm (by simp [Phase.hops])

theorem look_of_hears (hstand : Phase.Standing w.engine.registry (.awaiting sweep flight))
    (hbox : w.engine.registry.mailbox? flight.mailbox = some .waiting)
    (h : w.catchUp.Hears flight flight.retransmitted w.catchUp.connection.inbox) :
    ∃ r, (w.look sweep flight).1 = .finished (.ok r) w.now ∧ r.target = sweep.session.target ∧
      r.hops = sweep.session.hops ++
        [.resolved flight.ttl r.target (w.now - flight.sentAt) .destination] ∧
      r.completed = true ∧ r.reached = true := by
  obtain ⟨hstate, httl, -⟩ := hstand
  obtain ⟨w', hread, hnow, -⟩ := readSignals_of_hears h
  have htime : w'.now = w.now := hnow.trans w.lapse_catchUp.now
  have hlisten : w.listen flight = (.echoed, w') := hread
  rw [look_of_waiting hbox, hlisten, ← htime]
  dsimp only
  rw [conclude_of_awaited (hstate.trans (by rw [← httl]; rfl)), if_pos ?_]
  · refine ⟨_, rfl, rfl, rfl, rfl, ?_⟩
    simp [Session.freeze, Session.reached, Sweep.last, Hop.reaches, Hop.resolved]
  · simp [Session.endsWith, Hop.reaches, Hop.resolved]

end World

namespace Fleet

open Relation (ReflTransGen)

def counter (f : Fleet) (i : Nat) : Nat :=
  ((f.traces[i]?).map fun t => t.connection.counters.retransmitted).getD 0

def Steady (i : Nat) (f g : Fleet) : Prop := Step f g ∧ f.counter i ≤ g.counter i

/-- The step in which the trace sends the probe, and begins to do so while its counter stands at `n`:
the probe remembers the counter if the statistics can be read then, and zero otherwise. -/
def Sends (i : Nat) (f g : Fleet) (flight : Flight) (n : Nat) : Prop :=
  Steady i f g ∧ ∃ t u sweep giveUp wake next d,
    f.traces[i]? = some t ∧ t.phase = .settling sweep giveUp wake ∧
    g.traces[i]? = some u ∧ u.phase = .writing next d ∧ d.flight = flight ∧
    let asked := (t.world f.now f.engine).statistics.2.statistics
    n = asked.2.connection.counters.retransmitted ∧
      flight.retransmitted = Sender.retransmitted asked.1

def Records (i : Nat) (f g : Fleet) (flight : Flight) (hop : Hop) : Prop :=
  Steady i f g ∧ ∃ t u sweep,
    f.traces[i]? = some t ∧ t.phase = .awaiting sweep flight ∧
    g.traces[i]? = some u ∧ u.phase.hops = sweep.session.hops ++ [hop]

/-- The registry has resolved the probe by a reply that has come since the first of the two states
and names its token, and the hop has been delivered. -/
def Replied (f g : Fleet) (flight : Flight) (hop : Hop) : Prop :=
  g.engine.registry.mailbox? flight.mailbox = some (.holding hop) ∧
    ∃ op a at_, f.Since g op ∧ op.arrival? = some a ∧ a.token = flight.token ∧
      hop = a.hop hop.ttl at_

/-- What the trace can read now is an echo of the probe, with the counter at `n` right after it. -/
def Echoed (i : Nat) (f : Fleet) (flight : Flight) (n : Nat) : Prop :=
  ∃ t, f.traces[i]? = some t ∧
    let w := (t.world f.now f.engine).catchUp
    w.Hears flight n w.connection.inbox

def Proven (i : Nat) (start f : Fleet) (target : Net.Ip) (hop : Hop) : Prop :=
  ∃ f₁ f₂ f₃ f₄ flight n,
    ReflTransGen (Steady i) start f₁ ∧ Sends i f₁ f₂ flight n ∧
    ReflTransGen (Steady i) f₂ f₃ ∧ Records i f₃ f₄ flight hop ∧
    ReflTransGen (Steady i) f₄ f ∧
    (Replied f₂ f₃ flight hop ∨ Echoed i f₃ flight n ∧
      hop = .resolved flight.ttl target (f₃.now - flight.sentAt) .destination)

variable {i : Nat} {f g start : Fleet}

theorem reaches_of_steady (h : ReflTransGen (Steady i) f g) : ReflTransGen Step f g :=
  ReflTransGen.mono (show Steady i ≤ Step from fun _ _ hs => hs.1) f g h

theorem steady_runFor {n : Nat} {f : Fleet}
    (h : ∀ k < n, (runFor k f).counter i ≤ (runFor (k + 1) f).counter i) :
    ReflTransGen (Steady i) f (runFor n f) := by
  induction n generalizing f with
  | zero => exact .refl
  | succ n ih =>
      simp only [runFor]
      split
      · exact .refl
      · rename_i hopen
        have hrun : ∀ k, runFor (k + 1) f = runFor k f.step := fun k => by
          rw [runFor, if_neg hopen]
        have hfirst : f.counter i ≤ f.step.counter i := by
          have hzero := h 0 (Nat.succ_pos n)
          rwa [hrun] at hzero
        refine .head ⟨step_of_open (Bool.eq_false_iff.mpr hopen), hfirst⟩ (ih fun k hk => ?_)
        rw [← hrun, ← hrun]
        exact h (k + 1) (Nat.succ_lt_succ hk)

theorem counter_le (h : ReflTransGen (Steady i) f g) : f.counter i ≤ g.counter i := by
  induction h with
  | refl => exact Nat.le_refl _
  | tail _ hs ih => exact Nat.le_trans ih hs.2

theorem Proven.tail {target : Net.Ip} {hop : Hop} (h : Proven i start f target hop)
    (hs : Steady i f g) : Proven i start g target hop := by
  obtain ⟨f₁, f₂, f₃, f₄, flight, n, h₁, hsent, h₂, hrecorded, h₄, hgrounds⟩ := h
  exact ⟨f₁, f₂, f₃, f₄, flight, n, h₁, hsent, h₂, hrecorded, h₄.tail hs, hgrounds⟩

theorem elapsed_of_reaches {e : Engine} {now : Instant} {setups : List Trace.Setup}
    (he : e.registry.Sound) (hf : ReflTransGen Step (e.fleet now setups) f)
    (hg : ReflTransGen Step f g) : Elapsed f g := by
  induction hg with
  | refl => exact .refl f
  | @tail k g hk hs ih =>
      have hcourse := course_of_reaches (Q := fun _ => True) he (fun _ _ => trivial) (hf.trans hk)
      exact ih.trans (.of_step (fun j t ht => (hcourse j t ht).1) hs)

def Underway (i : Nat) (start f : Fleet) (flight : Flight) : Prop :=
  ∃ f₁ f₂ n, ReflTransGen (Steady i) start f₁ ∧ Sends i f₁ f₂ flight n ∧
    ReflTransGen (Steady i) f₂ f

theorem Sends.spec {c : Config} {flight : Flight} {n : Nat} (h : Sends i f g flight n)
    (hf : f.Each fun _ now e t => t.OnCourse c t.connection.behaviour now e) :
    g.counter i = n ∧ (flight.retransmitted = n ∨ flight.retransmitted = 0) ∧
      g.engine.registry.mailbox? flight.mailbox = some .waiting ∧
      g.engine.registry.Assigned flight.mailbox fun e => e.token = flight.token := by
  obtain ⟨⟨hs, -⟩, t, u, sweep, giveUp, wake, next, d, ht, hphase, hu, hwriting, rfl, hn, hsame⟩ := h
  have hcourse := hf i t ht
  obtain ⟨v, hv, hseen⟩ := hs.seen ht
  cases hu.symm.trans hv
  cases hseen with
  | turn hready hnow he =>
      have hturn : t.turn f.now f.engine = (.writing next d, (t.turn f.now f.engine).2) :=
        Prod.ext hwriting rfl
      obtain ⟨hremember, hcounters, hregister⟩ :=
        Trace.sends_of_turn hcourse.valid.ordered hcourse.valid.standing hphase hturn
      have hlapse := (t.world f.now f.engine).lapse_statistics.trans
        (t.world f.now f.engine).statistics.2.lapse_statistics
      have hsound : (t.world f.now f.engine).statistics.2.statistics.2.engine.registry.Sound := by
        rw [hlapse.registry]
        exact hcourse.sound.after _
      refine ⟨?_, ?_, ?_, ?_⟩
      · rw [counter, hu, hn, ← hcounters]
        rfl
      · rw [hremember, hn]
        cases hanswer : (t.world f.now f.engine).statistics.2.statistics.1 with
        | error fault => exact .inr rfl
        | ok info =>
            refine .inl ?_
            rw [show (t.world f.now f.engine).statistics.2.statistics.2.connection.counters = info
              from World.counters_of_query hanswer]
            rfl
      · have hbox := hsound.mailbox?_register hregister d.flight.mailbox
        rw [if_pos rfl] at hbox
        rw [he]
        exact hbox
      · rw [he]
        exact hsound.assigned hregister rfl
  | other hne hj hready hnow he =>
      rw [hphase] at hwriting
      cases hwriting
  | wait hidle hwake hnow he =>
      rw [hphase] at hwriting
      cases hwriting

theorem Underway.tail {flight : Flight} (h : Underway i start f flight) (hs : Steady i f g) :
    Underway i start g flight := by
  obtain ⟨f₁, f₂, n, h₁, hsent, h₂⟩ := h
  exact ⟨f₁, f₂, n, h₁, hsent, h₂.tail hs⟩

theorem look_of_recorded {t : Trace} {now : Instant} {e : Engine} {sweep : Sweep} {flight : Flight}
    {hop : Hop} (hstand : t.phase.Standing e.registry) (hphase : t.phase = .awaiting sweep flight)
    (h : (t.turn now e).1.hops = sweep.session.hops ++ [hop]) :
    t.turn now e = (t.world now e).look sweep flight := by
  have hopen := hstand.isOpen (by rw [hphase, Phase.sweep?])
  simp only [Trace.turn, hphase] at h ⊢
  split
  · rename_i hcancelled
    rw [if_pos hcancelled, World.giveUp_of_open hopen] at h
    exact absurd h.symm (by
      simp [World.finish, Phase.hops, Abort.error, TraceError.partial?, Session.freeze])
  · rfl

variable {e : Engine} {now : Instant} {setups : List Trace.Setup}

theorem proven_of_recorded (he : e.registry.Sound)
    (hr : ReflTransGen (Steady i) (e.fleet now setups) f) (hs : Steady i f g) {t u : Trace}
    (ht : f.traces[i]? = some t) (hu : g.traces[i]? = some u)
    (hturn : u = (t.step f.now f.engine).1) {sweep : Sweep} {flight : Flight}
    (hphase : t.phase = .awaiting sweep flight) {hop : Hop}
    (hhops : u.phase.hops = sweep.session.hops ++ [hop])
    (hresponder : hop.responder = some sweep.session.target)
    (hunder : Underway i (e.fleet now setups) f flight) :
    Proven i (e.fleet now setups) g sweep.session.target hop := by
  obtain ⟨f₁, f₂, n, h₁, hsent, h₂⟩ := hunder
  refine ⟨f₁, f₂, f, g, flight, n, h₁, hsent, h₂, ⟨hs, t, u, sweep, ht, hphase, hu, hhops⟩, .refl, ?_⟩
  have hcourse := fun {k : Fleet} (hk : ReflTransGen (Steady i) (e.fleet now setups) k) j t ht =>
    (course_of_reaches (Q := fun _ => True) he (fun _ _ => trivial) (reaches_of_steady hk) j t ht).1
  obtain ⟨hcounter, hremember, hempty, hassigned⟩ := hsent.spec (hcourse h₁)
  have hstand := (hcourse hr i t ht).valid.standing
  subst hturn
  have hlook := look_of_recorded hstand hphase hhops
  have hhops' : ((t.world f.now f.engine).look sweep flight).1.hops =
      sweep.session.hops ++ [hop] := by
    rw [← hlook]
    exact hhops
  rw [hphase] at hstand
  rcases World.hops_look hstand hhops' (by simp [hresponder]) with
    hbox | ⟨hechoed, hconnection, rfl⟩
  · refine .inl ⟨hbox, ?_⟩
    obtain ⟨ops, hafter, hops⟩ :=
      (elapsed_of_reaches he (reaches_of_steady (h₁.trans (.head hsent.1 .refl)))
        (reaches_of_steady h₂)).registry
    have hbox' : (f₂.engine.registry.after ops).mailbox? flight.mailbox = some (.holding hop) := by
      rw [← hafter]
      exact hbox
    obtain ⟨op, hmem, a, at_, ha, htoken, hhop⟩ :=
      Registry.arrival_of_holding hassigned (by simp [hempty]) hbox'
    have hsince := (hops op hmem).resolve_left (by simp [ha])
    exact ⟨op, a, at_, hsince, ha, htoken, hhop⟩
  · refine .inr ⟨⟨t, ht, ?_⟩, rfl⟩
    obtain ⟨hhears, hcounters⟩ := World.hears_of_echoed hechoed
    have hsame : (t.step f.now f.engine).1.connection =
        ((t.world f.now f.engine).listen flight).2.connection := by
      rw [← hconnection, ← hlook]
      rfl
    have hlast : g.counter i = flight.retransmitted := by
      rw [counter, hu, ← hcounters]
      exact congrArg (fun c => c.counters.retransmitted) hsame
    have hle : n ≤ flight.retransmitted := by
      rw [← hlast, ← hcounter]
      exact Nat.le_trans (counter_le h₂) hs.2
    have hstill : flight.retransmitted = n := by omega
    rw [hstill] at hhears
    exact hhears

structure Grounded (i : Nat) (start f : Fleet) (phase : Phase) : Prop where
  underway : ∀ flight, phase.flight? = some flight → Underway i start f flight
  proven : ∀ target, phase.target? = some target → ∀ hop ∈ phase.hops,
    hop.responder = some target → Proven i start f target hop

theorem Grounded.tail {phase : Phase} (h : Grounded i start f phase) (hs : Steady i f g) :
    Grounded i start g phase :=
  ⟨fun flight hf => (h.underway flight hf).tail hs, fun target htarget hop hmem hresponder =>
    (h.proven target htarget hop hmem hresponder).tail hs⟩

theorem Grounded.turn (he : e.registry.Sound)
    (hr : ReflTransGen (Steady i) (e.fleet now setups) f) (hs : Steady i f g) {t : Trace}
    (ht : f.traces[i]? = some t) (hu : g.traces[i]? = some (t.step f.now f.engine).1)
    (h : Grounded i (e.fleet now setups) f t.phase) :
    Grounded i (e.fleet now setups) g (t.turn f.now f.engine).1 := by
  have hkept := h.tail hs
  have hcourse := (course_of_reaches (Q := fun _ => True) he (fun _ _ => trivial)
    (reaches_of_steady hr) i t ht).1
  obtain ⟨es, hc⟩ := Trace.course_turn f.now hcourse.valid.standing
  constructor
  · intro flight hflight
    rcases hc.flight hflight with hold | ⟨sweep, giveUp, wake, next, d, hphase, hwriting, rfl⟩
    · exact hkept.underway flight hold
    · obtain ⟨hremember, -⟩ := Trace.sends_of_turn hcourse.valid.ordered hcourse.valid.standing
        hphase (Prod.ext hwriting rfl)
      exact ⟨f, g, _, hr, ⟨hs, t, _, sweep, giveUp, wake, next, d, ht, hphase, hu, hwriting, rfl, rfl,
        hremember⟩, .refl⟩
  · intro target htarget hop hmem hresponder
    have hsame : t.phase.target? = some target := by
      rcases hc.target htarget with hsame | hnone
      · exact hsame
      · rw [hnone] at hmem
        cases hmem
    rcases hc.records with hold | ⟨last, happend, hlast⟩
    · exact hkept.proven target hsame hop (hold ▸ hmem) hresponder
    · rw [happend] at hmem
      rcases List.mem_append.mp hmem with hold | hnew
      · exact hkept.proven target hsame hop hold hresponder
      · obtain rfl := List.mem_singleton.mp hnew
        rcases hlast with ⟨sweep, flight, hphase, -⟩ | ⟨sweep, giveUp, wake, -, rfl, -⟩
        · replace hphase : t.phase = .awaiting sweep flight := hphase
          replace happend : (t.turn f.now f.engine).1.hops = t.phase.hops ++ [hop] := happend
          rw [hphase] at hsame happend
          cases hsame
          exact proven_of_recorded he hr hs ht hu rfl hphase happend hresponder
            (h.underway flight (by rw [hphase, Phase.flight?]))
        · cases hresponder

theorem grounded_of_reaches (he : e.registry.Sound)
    (hr : ReflTransGen (Steady i) (e.fleet now setups) f) :
    ∀ t, f.traces[i]? = some t → Grounded i (e.fleet now setups) f t.phase := by
  induction hr with
  | refl =>
      intro t ht
      simp only [Engine.fleet, List.getElem?_map, Option.map_eq_some_iff] at ht
      obtain ⟨s, -, rfl⟩ := ht
      constructor
      · intro flight hflight
        cases hflight
      · intro target htarget
        cases htarget
  | @tail k g hk hs ih =>
      intro u hu
      have hi : i < k.traces.length := by
        rw [← length_step hs.1]
        exact (List.getElem?_eq_some_iff.mp hu).1
      have ht : k.traces[i]? = some k.traces[i] := List.getElem?_eq_getElem hi
      obtain ⟨v, hv, hseen⟩ := hs.1.seen ht
      cases hu.symm.trans hv
      cases hseen with
      | turn hready hnow heng => exact (ih _ ht).turn he hk hs ht hu
      | other hne hj hready hnow heng => exact (ih _ ht).tail hs
      | wait hidle hwake hnow heng => exact (ih _ ht).tail hs

structure Waits (f : Fleet) (i : Nat) (sweep : Sweep) (flight : Flight) : Prop where
  waiting : f.engine.registry.mailbox? flight.mailbox = some .waiting
  active : ∃ t, f.traces[i]? = some t ∧ t.phase = .awaiting sweep flight ∧
    t.isCancelled f.engine = false

theorem Waits.turn_eq_look {sweep : Sweep} {flight : Flight} (h : f.Waits i sweep flight)
    {t : Trace} (ht : f.traces[i]? = some t) :
    t.phase = .awaiting sweep flight ∧
      t.turn f.now f.engine = (t.world f.now f.engine).look sweep flight := by
  obtain ⟨u, hu, hphase, hactive⟩ := h.active
  cases hu.symm.trans ht
  exact ⟨hphase, by simp [Trace.turn, hphase, hactive]⟩

theorem Waits.turn_of_passes {sweep : Sweep} {flight : Flight} (h : f.Waits i sweep flight)
    {t : Trace} (ht : f.traces[i]? = some t) :
    let w := (t.world f.now f.engine).catchUp
    let after := (w.asked (World.candidates flight w.connection.inbox)).withInbox []
    w.Passes flight w.connection.inbox →
      t.turn f.now f.engine = if flight.deadline ≤ f.now then
        (after.forget flight.token flight.mailbox).conclude sweep (.timedOut flight.ttl)
      else (.awaiting sweep flight, after) := by
  intro w after hpass
  obtain ⟨-, hlook⟩ := h.turn_eq_look ht
  have hlisten : (t.world f.now f.engine).listen flight = (.nothing, after) :=
    World.readSignals_of_passes hpass
  have hnow : after.now = f.now :=
    (World.now_asked w _).trans (t.world f.now f.engine).lapse_catchUp.now
  rw [hlook, World.look_of_waiting h.waiting, hlisten]
  simp only [hnow]

theorem Waits.ends_of_hears {sweep : Sweep} {flight : Flight} (h : f.Waits i sweep flight)
    (hf : f.Valid) {t : Trace} (ht : f.traces[i]? = some t) :
    let w := (t.world f.now f.engine).catchUp
    w.Hears flight flight.retransmitted w.connection.inbox →
      f.isReady i ∧ ∃ r, r.target = sweep.session.target ∧
        r.hops = sweep.session.hops ++
          [.resolved flight.ttl r.target (f.now - flight.sentAt) .destination] ∧
        r.completed = true ∧ r.reached = true ∧
        ∀ g, ReflTransGen Step (f.act i) g → g.outcomeAt? i = some (.ok r) := by
  intro w hears
  obtain ⟨hphase, hlook⟩ := h.turn_eq_look ht
  have hstand := (hf.traces t (List.mem_of_getElem? ht)).standing
  rw [hphase] at hstand
  refine ⟨?_, ?_⟩
  · have hready : t.ready f.now f.engine := by
      simp only [Trace.ready, hphase, Bool.or_eq_true, Bool.not_eq_true', List.isEmpty_eq_false_iff]
      obtain ⟨before, after, info, hinbox, -⟩ := hears
      have hne : w.connection.inbox ≠ [] := by simp [hinbox]
      by_cases hempty : t.connection.inbox = []
      · exact .inl (.inr (World.isDue_of_catchUp hempty hne))
      · exact .inl (.inl (.inr hempty))
    simpa [isReady, ht] using hready
  · obtain ⟨r, hend, htarget, hhops, hcompleted, hreached⟩ :=
      World.look_of_hears hstand h.waiting hears
    refine ⟨r, htarget, hhops, hcompleted, hreached, ?_⟩
    have hfirst : (f.act i).outcomeAt? i = some (.ok r) := by
      obtain ⟨-, -, htraces⟩ := act_eq ht
      rw [outcomeAt?, htraces, List.getElem?_set_self (List.getElem?_eq_some_iff.mp ht).1,
        Option.bind_some]
      have hfinal : (t.step f.now f.engine).1.phase = .finished (.ok r) f.now :=
        (congrArg Prod.fst hlook).trans hend
      rw [Trace.outcome?, hfinal]
    intro g hg
    induction hg with
    | refl => exact hfirst
    | tail _ hs ih => exact hs.outcomeAt?_of_some ih

end Fleet

/-- While the counter of retransmissions does not go down, a hop at the target is recorded only for a
reply that names its probe, or for an echo of it. An echo that is heard in time ends the trace. -/
theorem Engine.echoes_of_run (e : Engine) (history : List Registry.Operation) (now : Instant)
    (setups : List Trace.Setup) (i : Nat) :
    let start := (e.withHistory history).fleet now setups
    (∀ f, Relation.ReflTransGen (Fleet.Steady i) start f → ∀ t, f.traces[i]? = some t →
      ∀ target, t.phase.target? = some target → ∀ hop ∈ t.phase.hops,
        hop.responder = some target → Fleet.Proven i start f target hop) ∧
    ∀ f, Relation.ReflTransGen Fleet.Step start f → ∀ t, f.traces[i]? = some t →
      ∀ sweep flight, t.phase = .awaiting sweep flight →
        let w := (t.world f.now f.engine).catchUp
        let inbox := w.connection.inbox
        (flight.ping ∈ t.connection.pings ∧
          ∀ p ∈ t.connection.pings, p.payload = flight.payload → p = flight.ping) ∧
        (∀ before rest, inbox = before ++ rest → w.Passes flight before →
          (t.world f.now f.engine).listen flight =
            World.readSignals flight rest (w.asked (World.candidates flight before))) ∧
        (f.Waits i sweep flight →
          (w.Passes flight inbox →
            let after := (w.asked (World.candidates flight inbox)).withInbox []
            t.turn f.now f.engine = if flight.deadline ≤ f.now then
              (after.forget flight.token flight.mailbox).conclude sweep (.timedOut flight.ttl)
            else (.awaiting sweep flight, after)) ∧
          (w.Hears flight flight.retransmitted inbox →
            f.isReady i ∧ ∃ r, r.target = sweep.session.target ∧
              r.hops = sweep.session.hops ++
                [.resolved flight.ttl r.target (f.now - flight.sentAt) .destination] ∧
              r.completed = true ∧ r.reached = true ∧
              ∀ g, Relation.ReflTransGen Fleet.Step (f.act i) g →
                g.outcomeAt? i = some (.ok r))) := by
  intro start
  have hsound : (e.withHistory history).registry.Sound := Registry.sound_after_empty history
  refine ⟨?_, ?_⟩
  · intro f hf t ht
    exact (Fleet.grounded_of_reaches hsound hf t ht).proven
  · intro f hf t ht sweep flight hphase w inbox
    have hvalid : f.Valid := ((e.valid_fleet history now setups).reaches hf).1
    refine ⟨?_, ?_, ?_⟩
    · exact Fleet.ping_eq_of_reaches hsound hf ht (by rw [hphase, Phase.flight?])
    · intro before rest hinbox hpass
      rw [← World.readSignals_append hpass, ← hinbox]
      rfl
    · intro hwaits
      exact ⟨hwaits.turn_of_passes ht, hwaits.ends_of_hears hvalid ht⟩

def Trace.Setup.retransmitting : Setup where
  id := "a"
  behaviour :=
    { localAddress := .ok (.v4 ⟨192, 0, 2, 10⟩ 443)
      peerAddress := fun _ => .ok (.v4 ⟨198, 51, 100, 20⟩ 51234)
      write := fun ttl =>
        { reactions :=
            if ttl = 1 then
              [(Span.ofMillis 10, fun _ => .pong [0]), (Span.ofMillis 20, fun _ => .retransmitted 1),
                (Span.ofMillis 30, .pong)]
            else [(Span.ofMillis 40, .pong)] } }

def Fleet.retransmitting : Fleet :=
  (({ config := .default, wallClock := fun _ => ⟨0, 0⟩ } : Engine).withHistory []).fleet 0
    [.retransmitting]

theorem Fleet.hops_retransmitting :
    (retransmitting.runFor 15).traces[0]?.map (fun t => (t.phase.target?, t.phase.hops)) =
      some (some (.v4 ⟨198, 51, 100, 20⟩), [.timedOut 1,
        .resolved 2 (.v4 ⟨198, 51, 100, 20⟩) (Span.ofMillis 40) .destination]) := by
  decide +kernel

theorem Engine.echoes_of_retransmitting_run :
    Fleet.Proven 0 Fleet.retransmitting (Fleet.retransmitting.runFor 15) (.v4 ⟨198, 51, 100, 20⟩)
      (.resolved 2 (.v4 ⟨198, 51, 100, 20⟩) (Span.ofMillis 40) .destination) := by
  obtain ⟨hproven, -⟩ := Engine.echoes_of_run { config := .default, wallClock := fun _ => ⟨0, 0⟩ } []
    0 [.retransmitting] 0
  obtain ⟨t, ht, hstate⟩ := Option.map_eq_some_iff.mp Fleet.hops_retransmitting
  obtain ⟨htarget, hhops⟩ := Prod.mk.inj hstate
  have hsteady : Relation.ReflTransGen (Fleet.Steady 0) Fleet.retransmitting
      (Fleet.retransmitting.runFor 15) :=
    Fleet.steady_runFor (by decide +kernel)
  exact hproven _ hsteady t ht _ htarget _ (by rw [hhops]; exact List.mem_cons_of_mem _ (.head _)) rfl

end InbandTrace
