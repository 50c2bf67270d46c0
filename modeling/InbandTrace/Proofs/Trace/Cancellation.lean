import InbandTrace.Connection.Path
import InbandTrace.Proofs.Trace.Beside
import InbandTrace.Proofs.Trace.Heed
import InbandTrace.Proofs.Trace.Termination
import InbandTrace.Proofs.Trace.Wire

namespace InbandTrace

theorem Connection.setTtl_fst (c : Connection) (v : Nat) :
    (c.setTtl v).1 = c.behaviour.setTtl c.ttlCalls v := by
  unfold setTtl
  split <;> simp [*]

def Phase.fails (c : Connection) : Phase → Bool
  | .writing sweep d => d.failure.isSome || (c.setTtl sweep.sender.defaultTtl).1.isSome
  | _ => false

namespace Sender

variable {s : Sender} {w w' : World} {d : Departure}

theorem setTtl_landing (s : Sender) (w : World) (d : Departure) :
    ((if d.pauses then w.catchUp else w).setTtl s.defaultTtl).1 =
      (w.connection.setTtl s.defaultTtl).1 := by
  have hlapse := w.lapse_catchUp
  split
  · rw [World.setTtl, Connection.setTtl_fst, Connection.setTtl_fst, hlapse.behaviour,
      hlapse.ttlCalls]
  · rfl

theorem fails_of_land_error {sweep : Sweep} {fault : Fault}
    (h : sweep.sender.land w d = (.error fault, w')) :
    (Phase.writing sweep d).fails w.connection = true := by
  have hset := setTtl_landing sweep.sender w d
  simp only [land, restore] at h
  split at h
  · cases h
  · rename_i hfailure
    simp [Phase.fails, hfailure]
  · rename_i hset'
    rw [hset'] at hset
    simp [Phase.fails, ← hset]

theorem fails_of_land_ok {sweep : Sweep} {flight : Flight}
    (h : sweep.sender.land w d = (.ok flight, w')) :
    (Phase.writing sweep d).fails w.connection = false := by
  have hset := setTtl_landing sweep.sender w d
  simp only [land, restore] at h
  split at h
  · rename_i hfailure hset'
    rw [hset'] at hset
    simp [Phase.fails, hfailure, ← hset]
  · cases h
  · cases h

end Sender

namespace Trace

/-- How a trace ends that was called off at a time, as it stood then. Nothing is said of one for
which there was no sender. -/
def EndsAs (since : Instant) (t : Trace) (outcome : Except TraceError TraceResult) : Prop :=
  (∃ r : TraceResult, r.hops = t.phase.hops ∧ outcome =
      .error (if t.phase.fails t.connection then .connectionClosed r else .cancelled r)) ∨
    t.phase = .opening ∧ ∃ e error, (Sender.start (t.world since e)).1 = .error error

/-- What has become of a trace since it was called off: it has sent and recorded nothing more. -/
structure Unwound (since : Instant) (t v : Trace) : Prop where
  pings : v.connection.pings = t.connection.pings
  hops : v.phase.hops = t.phase.hops
  kept : ∀ outcome, t.outcome? = some outcome → v.outcome? = some outcome
  outcome : t.outcome? = none → ∀ outcome, v.outcome? = some outcome → t.EndsAs since outcome

end Trace

def Phase.Winding (since : Instant) (t : Trace) (now : Instant) (c : Connection) : Phase → Prop
  | .opening => t.phase = .opening ∧ c = t.connection ∧ now = since
  | .writing sweep d => t.phase = .writing sweep d ∧ c = t.connection
  | .settling .. | .awaiting .. => t.outcome? = none ∧ t.phase.fails t.connection = false
  | .finished outcome _ =>
      t.outcome? = some outcome ∨ t.outcome? = none ∧ t.EndsAs since outcome

structure Trace.Winding (since : Instant) (t : Trace) (now : Instant) (e : Engine) (v : Trace) :
    Prop where
  cancelled : v.isCancelled e
  pings : v.connection.pings = t.connection.pings
  hops : v.phase.hops = t.phase.hops
  stage : v.phase.Winding since t now v.connection

namespace Trace.Winding

variable {since now : Instant} {e : Engine} {t v : Trace}

theorem start (h : t.isCancelled e) : Winding now t now e t := by
  refine ⟨h, rfl, rfl, ?_⟩
  cases hphase : t.phase with
  | opening => exact ⟨hphase, rfl, rfl⟩
  | settling sweep giveUp wake =>
      refine ⟨by rw [outcome?, hphase], ?_⟩
      rw [hphase]
      rfl
  | writing sweep d => exact ⟨hphase, rfl⟩
  | awaiting sweep flight =>
      refine ⟨by rw [outcome?, hphase], ?_⟩
      rw [hphase]
      rfl
  | finished outcome at_ =>
      refine .inl ?_
      rw [outcome?, hphase]

theorem unwound (h : Winding since t now e v) : t.Unwound since v := by
  have hstage := h.stage
  refine ⟨h.pings, h.hops, ?_, ?_⟩
  · intro outcome hout
    cases hphase : v.phase with
    | finished outcome' at_ =>
        rw [hphase] at hstage
        rcases hstage with hsame | ⟨hnone, -⟩
        · rw [hsame] at hout
          cases hout
          rw [Trace.outcome?, hphase]
        · rw [hnone] at hout
          cases hout
    | opening =>
        rw [hphase] at hstage
        rw [Trace.outcome?, hstage.1] at hout
        cases hout
    | writing sweep d =>
        rw [hphase] at hstage
        rw [Trace.outcome?, hstage.1] at hout
        cases hout
    | settling sweep giveUp wake =>
        rw [hphase] at hstage
        rw [hstage.1] at hout
        cases hout
    | awaiting sweep flight =>
        rw [hphase] at hstage
        rw [hstage.1] at hout
        cases hout
  · intro hnone outcome hout
    unfold outcome? at hout
    split at hout
    · rename_i outcome' at_ hphase
      cases hout
      rw [hphase] at hstage
      rcases hstage with hsame | ⟨-, hends⟩
      · rw [hsame] at hnone
        cases hnone
      · exact hends
    · cases hout

end Trace.Winding

namespace World

theorem opening_cases (w : World) (id : String) :
    (∃ error outcome at_, (Sender.start w).1 = .error error ∧
      (w.opening id).1 = .finished outcome at_) ∨
    ∃ sweep giveUp wake, (w.opening id).1 = .settling sweep giveUp wake := by
  unfold opening
  split
  · rename_i error w' h
    rw [giveUp_of_open rfl]
    exact .inl ⟨error, _, _, by rw [h], rfl⟩
  · rename_i sender w' h
    have hidle : (w'.sessionTo id sender.flow.dst.ip).state = .idle := rfl
    simp only [Session.begin_of_idle hidle]
    exact .inr ⟨_, _, _, rfl⟩

@[simp]
theorem stopped_proceed (w : World) (sweep : Sweep) (hop : Hop) :
    (w.proceed sweep hop).2.engine.stopped = w.engine.stopped := by
  unfold proceed
  split <;> rfl

theorem written_cases {w : World} {r : Registry} {sweep : Sweep} {d : Departure}
    (hstand : Phase.Standing r (.writing sweep d)) :
    ((Phase.writing sweep d).fails w.connection = true ∧ ∃ result at_,
      result.hops = sweep.session.hops ∧
      (w.written sweep d).1 = .finished (.error (.connectionClosed result)) at_) ∨
    (Phase.writing sweep d).fails w.connection = false ∧
      (w.written sweep d).1 = .awaiting (awaited sweep) d.flight := by
  unfold written
  split
  · rename_i fault w' h
    rw [giveUp_of_open (hstand.isOpen rfl)]
    exact .inl ⟨Sender.fails_of_land_error h, _, _, rfl, rfl⟩
  · rename_i flight w' h
    rw [await_of_probing hstand.1, Sender.land_ok h]
    exact .inr ⟨Sender.fails_of_land_ok h, rfl⟩

end World

namespace Trace.Winding

variable {since now : Instant} {e : Engine} {t v : Trace}

theorem hops_step (hv : v.Valid e) (hcancel : v.isCancelled e) :
    (v.step now e).1.phase.hops = v.phase.hops ∧
      (v.step now e).1.connection.pings = v.connection.pings := by
  obtain ⟨es, hc⟩ := course_turn now hv.standing
  have hwrites := hc.writes
  have hrecords := hc.records
  cases hphase : v.phase with
  | settling sweep giveUp wake =>
      have hopen := hv.standing.isOpen (by rw [hphase, Phase.sweep?])
      simp only [Trace.step, turn, hphase, hcancel, if_true, World.giveUp_of_open hopen]
      exact ⟨rfl, rfl⟩
  | awaiting sweep flight =>
      have hopen := hv.standing.isOpen (by rw [hphase, Phase.sweep?])
      simp only [Trace.step, turn, hphase, hcancel, if_true, World.giveUp_of_open hopen]
      exact ⟨rfl, rfl⟩
  | _ =>
      rw [hphase] at hwrites hrecords
      refine ⟨?_, ?_⟩
      · rcases hrecords with hsame | ⟨hop, -, ⟨sweep, flight, hbefore, -⟩ |
          ⟨sweep, giveUp, wake, hbefore, -⟩⟩
        · exact hsame
        · cases hbefore
        · cases hbefore
      · rcases hwrites with hsame | ⟨sweep, giveUp, wake, next, d, hbefore, -⟩
        · exact hsame
        · cases hbefore

theorem step (h : Winding since t now e v) (hv : v.Valid e) (hready : v.ready now e) :
    Winding since t now (v.step now e).2 (v.step now e).1 := by
  obtain ⟨hhops, hpings⟩ : (v.step now e).1.phase.hops = v.phase.hops ∧
      (v.step now e).1.connection.pings = v.connection.pings := hops_step hv h.cancelled
  refine ⟨isCancelled_step h.cancelled, hpings.trans h.pings, hhops.trans h.hops, ?_⟩
  have hstage := h.stage
  have hsame := h.hops
  cases hphase : v.phase with
  | opening =>
      rw [hphase] at hstage
      obtain ⟨hbefore, hconn, rfl⟩ := hstage
      have hnone : t.outcome? = none := by rw [Trace.outcome?, hbefore]
      simp only [Trace.step, turn, hphase]
      rcases World.opening_cases (v.world now e) v.id with
        ⟨error, outcome, at_, hstart, hturn⟩ | ⟨sweep, giveUp, wake, hturn⟩
      · rw [hturn]
        rw [world, hconn] at hstart
        exact .inr ⟨hnone, .inr ⟨hbefore, e, error, hstart⟩⟩
      · rw [hturn]
        refine ⟨hnone, ?_⟩
        rw [hbefore]
        rfl
  | settling sweep giveUp wake =>
      rw [hphase] at hstage hsame
      have hopen := hv.standing.isOpen (by rw [hphase, Phase.sweep?])
      simp only [Trace.step, turn, hphase, h.cancelled, if_true, World.giveUp_of_open hopen]
      let aborted : Session := { sweep.session with state := .aborted }
      refine .inr ⟨hstage.1, .inl ⟨aborted.freeze (v.world now e).civil, hsame, ?_⟩⟩
      rw [hstage.2]
      rfl
  | writing sweep d =>
      rw [hphase] at hstage hsame
      obtain ⟨hbefore, hconn⟩ := hstage
      have hnone : t.outcome? = none := by rw [Trace.outcome?, hbefore]
      have hstand := hv.standing
      rw [hphase] at hstand
      simp only [Trace.step, turn, hphase]
      rcases World.written_cases (w := v.world now e) hstand with
        ⟨hfails, result, at_, hresult, hturn⟩ | ⟨hfails, hturn⟩
      · rw [hturn]
        rw [world, hconn, ← hbefore] at hfails
        exact .inr ⟨hnone, .inl ⟨result, hresult.trans hsame, by rw [hfails]; rfl⟩⟩
      · rw [hturn]
        rw [world, hconn, ← hbefore] at hfails
        exact ⟨hnone, hfails⟩
  | awaiting sweep flight =>
      rw [hphase] at hstage hsame
      have hopen := hv.standing.isOpen (by rw [hphase, Phase.sweep?])
      simp only [Trace.step, turn, hphase, h.cancelled, if_true, World.giveUp_of_open hopen]
      let aborted : Session := { sweep.session with state := .aborted }
      refine .inr ⟨hstage.1, .inl ⟨aborted.freeze (v.world now e).civil, hsame, ?_⟩⟩
      rw [hstage.2]
      rfl
  | finished outcome at_ => simp [ready, hphase] at hready

theorem wait (h : Winding since t now e v) (hidle : v.ready now e = false) (later : Instant) :
    Winding since t later e v := by
  refine ⟨h.cancelled, h.pings, h.hops, ?_⟩
  have hstage := h.stage
  cases hphase : v.phase with
  | opening => simp [ready, hphase] at hidle
  | _ =>
      rw [hphase] at hstage
      exact hstage

end Trace.Winding

theorem Fleet.Valid.unwound {f k : Fleet} (h : f.Valid) {i : Nat} {t : Trace}
    (ht : f.traces[i]? = some t) (hcancel : t.isCancelled f.engine)
    (hr : Relation.ReflTransGen Step f k) :
    ∃ v, k.traces[i]? = some v ∧ t.Unwound f.now v := by
  obtain ⟨v, hv, hwinding⟩ := h.follow (P := Trace.Winding f.now t)
    (fun now e v hvalid hp hready => hp.step hvalid hready)
    (fun now e v u hvalid hp hready =>
      ⟨Trace.isCancelled_other hp.cancelled, hp.pings, hp.hops, hp.stage⟩)
    (fun now e v m hp hidle hwake => hp.wait hidle _) ht (.start hcancel) hr
  exact ⟨v, hv, hwinding.unwound⟩

theorem Phase.hops_of_sweep? {phase : Phase} {sweep : Sweep} (h : phase.sweep? = some sweep) :
    phase.hops = sweep.session.hops := by
  cases phase <;> cases h <;> rfl

namespace Trace

def Fails (now : Instant) (e : Engine) (t : Trace) : Prop :=
  match t.phase with
  | .settling sweep giveUp _ =>
      let asked := (t.world now e).statistics
      (Settle.quiet asked.1 ∨ giveUp ≤ now) ∧
        ∃ fault, (sweep.sender.launch asked.2 sweep.ttl).1 = .error (.fault fault)
  | .awaiting _ flight => e.registry.mailbox? flight.mailbox = some .waiting ∧
      ((t.world now e).listen flight).1 = .closed
  | phase => phase.fails t.connection

/-- A hop that no reply tells: a timeout, or the echo of a probe whose mailbox is still empty. -/
def Unreplied (now : Instant) (e : Engine) (t : Trace) (hop : Hop) : Prop :=
  hop = .timedOut hop.ttl ∨ ∃ sweep flight, t.phase = .awaiting sweep flight ∧
    e.registry.mailbox? flight.mailbox = some .waiting ∧
    ((t.world now e).listen flight).1 = .echoed ∧
    hop = .resolved sweep.ttl sweep.session.target (now - flight.sentAt) .destination

structure Interrupted (now : Instant) (e : Engine) (t u : Trace) : Prop where
  pings : u.connection.pings = t.connection.pings ∨
    ∃ p, u.connection.pings = p :: t.connection.pings ∧ p.sentAt = now
  hops : u.phase.hops = t.phase.hops ∨
    ∃ hop, u.phase.hops = t.phase.hops ++ [hop] ∧ t.Unreplied now e hop
  last : ∀ sweep hop, t.phase.sweep? = some sweep → u.phase.hops = t.phase.hops ++ [hop] →
    if sweep.session.endsWith hop then ∃ r, u.outcome? = some (.ok r) else u.outcome? = none
  failed : t.Fails now e → ∃ r, u.outcome? = some (.error (.connectionClosed r))
  outcome : ∀ outcome, u.outcome? = some outcome →
    (∃ r hop, outcome = .ok r ∧ r.hops = t.phase.hops ++ [hop]) ∨
    (∃ r : TraceResult, outcome = .error (.connectionClosed r) ∧ r.hops = t.phase.hops ∧
      t.Fails now e) ∨
    t.phase = .opening ∧ ∃ error, (Sender.start (t.world now e)).1 = .error error

namespace Interrupted

variable {now : Instant} {e : Engine} {t u : Trace}

theorem pings_step (now : Instant) (hstand : t.phase.Standing e.registry) :
    (t.step now e).1.connection.pings = t.connection.pings ∨
      ∃ p, (t.step now e).1.connection.pings = p :: t.connection.pings ∧ p.sentAt = now := by
  obtain ⟨es, hc⟩ := course_turn now hstand
  rcases hc.writes with hsame | ⟨sweep, giveUp, wake, next, d, -, -, -, -, hping⟩
  · exact .inl hsame
  · exact .inr ⟨_, hping, rfl⟩

section

variable (hpings : u.connection.pings = t.connection.pings ∨
  ∃ p, u.connection.pings = p :: t.connection.pings ∧ p.sentAt = now)

include hpings

theorem of_open (hhops : u.phase.hops = t.phase.hops) (hout : u.outcome? = none)
    (hsent : ¬ t.Fails now e) : t.Interrupted now e u := by
  refine ⟨hpings, .inl hhops, ?_, fun h => absurd h hsent, ?_⟩
  · intro sweep hop hsweep hmore
    rw [hhops] at hmore
    simp at hmore
  · intro outcome h
    rw [hout] at h
    cases h

theorem of_closed {r : TraceResult} (hr : r.hops = t.phase.hops)
    (hout : u.outcome? = some (.error (.connectionClosed r))) (hfails : t.Fails now e) :
    t.Interrupted now e u := by
  have hhops : u.phase.hops = t.phase.hops := by
    unfold outcome? at hout
    split at hout
    · rename_i outcome at_ hphase
      cases hout
      rw [hphase]
      exact hr
    · cases hout
  refine ⟨hpings, .inl hhops, ?_, fun _ => ⟨r, hout⟩, ?_⟩
  · intro sweep hop hsweep hmore
    rw [hhops] at hmore
    simp at hmore
  · intro outcome h
    rw [hout] at h
    cases h
    exact .inr (.inl ⟨r, rfl, hr, hfails⟩)

theorem of_proceed {w : World} {sweep next : Sweep} {hop : Hop}
    (hsweep : t.phase.sweep? = some sweep)
    (hsame : next.session.hops = sweep.session.hops ∧
      next.session.endsWith hop = sweep.session.endsWith hop)
    (hu : u.phase = (w.proceed next hop).1) (hhop : t.Unreplied now e hop)
    (hsent : ¬ t.Fails now e) : t.Interrupted now e u := by
  have hold := Phase.hops_of_sweep? hsweep
  have hhops : u.phase.hops = t.phase.hops ++ [hop] := by
    rw [hu, World.hops_proceed, hsame.1, hold]
  have hout : u.outcome? = if sweep.session.endsWith hop
      then some (.ok ((World.Sweep.last next hop).freeze w.civil)) else none := by
    rw [outcome?, hu, World.proceed, hsame.2]
    by_cases hends : sweep.session.endsWith hop
    · simp only [hends, if_true]
      rfl
    · simp only [hends]
      rfl
  refine ⟨hpings, .inr ⟨hop, hhops, hhop⟩, ?_, fun h => absurd h hsent, ?_⟩
  · intro sweep' hop' hsweep' hmore
    cases hsweep.symm.trans hsweep'
    rw [hhops] at hmore
    cases List.append_cancel_left hmore
    rw [hout]
    split
    · exact ⟨_, rfl⟩
    · rfl
  · intro outcome h
    rw [hout] at h
    split at h
    · cases h
      refine .inl ⟨_, hop, rfl, ?_⟩
      rw [hold, ← hsame.1]
      rfl
    · cases h

end

theorem opening (hphase : t.phase = .opening) (hstand : t.phase.Standing e.registry) :
    t.Interrupted now e (t.step now e).1 := by
  obtain ⟨es, hc⟩ := course_turn now hstand
  have hhops : (t.step now e).1.phase.hops = t.phase.hops := by
    have hrecords := hc.records
    rw [hphase] at hrecords ⊢
    rcases hrecords with hsame | ⟨hop, -, ⟨sweep, flight, hbefore, -⟩ |
      ⟨sweep, giveUp, wake, hbefore, -⟩⟩
    · exact hsame
    · cases hbefore
    · cases hbefore
  have hsent : ¬ t.Fails now e := by
    simp [Fails, hphase, Phase.fails]
  refine ⟨pings_step now hstand, .inl hhops, ?_, fun h => absurd h hsent, ?_⟩
  · intro sweep hop hsweep
    rw [hphase] at hsweep
    cases hsweep
  · intro outcome hout
    refine .inr (.inr ⟨hphase, ?_⟩)
    simp only [Trace.step, turn, hphase, outcome?] at hout
    rcases World.opening_cases (t.world now e) t.id with
      ⟨error, outcome', at_, hstart, hturn⟩ | ⟨sweep, giveUp, wake, hturn⟩
    · exact ⟨error, hstart⟩
    · rw [hturn] at hout
      cases hout

theorem settling {sweep : Sweep} {giveUp wake : Instant}
    (hphase : t.phase = .settling sweep giveUp wake) (hstand : t.phase.Standing e.registry)
    (hnot : t.isCancelled e = false) : t.Interrupted now e (t.step now e).1 := by
  have hpings := pings_step now hstand
  have hopen := hstand.isOpen (by rw [hphase, Phase.sweep?])
  have hstate : sweep.session.state = .probing sweep.ttl := by
    rw [hphase] at hstand
    exact hstand
  have hsweep : t.phase.sweep? = some sweep := by rw [hphase, Phase.sweep?]
  have hstep : (t.step now e).1.phase = ((t.world now e).probeWhenQuiet sweep giveUp).1 := by
    simp [Trace.step, turn, hphase, hnot]
  have hnow : (t.world now e).statistics.2.now = now := (t.world now e).lapse_statistics.now
  have hfails : t.Fails now e ↔
      (Settle.quiet (t.world now e).statistics.1 ∨ giveUp ≤ now) ∧ ∃ fault,
        (sweep.sender.launch (t.world now e).statistics.2 sweep.ttl).1 = .error (.fault fault) := by
    simp only [Fails, hphase]
  have hold := Phase.hops_of_sweep? hsweep
  simp only [World.probeWhenQuiet, hnow] at hstep
  split at hstep
  · rename_i hquiet
    simp only [Bool.or_eq_true, decide_eq_true_eq] at hquiet
    unfold World.probe at hstep
    split at hstep
    · rename_i d s w' hlaunch
      refine of_open hpings ?_ ?_ ?_
      · rw [hstep, hold]
        rfl
      · rw [outcome?, hstep]
      · rw [hfails, hlaunch]
        simp
    · rename_i token s w' hlaunch
      rw [World.await_of_probing hstate, World.conclude_eq_proceed rfl] at hstep
      refine of_proceed hpings hsweep ?_ hstep (.inl rfl) ?_
      · exact ⟨rfl, rfl⟩
      · rw [hfails, hlaunch]
        simp
    · rename_i fault s w' hlaunch
      rw [World.giveUp_of_open hopen] at hstep
      refine of_closed hpings ?_ (by rw [outcome?, hstep]; rfl) ?_
      · exact hold.symm
      · rw [hfails, hlaunch]
        exact ⟨hquiet, fault, rfl⟩
    · rename_i error s w' htoken hfault hlaunch
      rcases World.launch_cases hlaunch with ⟨token, hanswer, -⟩ | ⟨m, r, -, es, w₂, -, hsent⟩
      · cases hanswer
        exact absurd rfl (htoken token)
      · rcases hsent with ⟨fault, hanswer, -⟩ | ⟨d', hanswer, -⟩ <;> cases hanswer
        exact absurd rfl (hfault fault)
  · rename_i hquiet
    simp only [Bool.or_eq_true, decide_eq_true_eq] at hquiet
    refine of_open hpings ?_ ?_ ?_
    · rw [hstep, hold]
      rfl
    · rw [outcome?, hstep]
    · rw [hfails]
      exact fun h => hquiet h.1

theorem writing {sweep : Sweep} {d : Departure} (hphase : t.phase = .writing sweep d)
    (hstand : t.phase.Standing e.registry) : t.Interrupted now e (t.step now e).1 := by
  have hpings := pings_step now hstand
  have hfails : t.Fails now e ↔ (Phase.writing sweep d).fails t.connection = true := by
    simp only [Fails, hphase]
  have hstep : (t.step now e).1.phase = ((t.world now e).written sweep d).1 := by
    simp only [Trace.step, turn, hphase]
  rw [hphase] at hstand
  rcases World.written_cases (w := t.world now e) hstand with
    ⟨hlost, result, at_, hresult, hturn⟩ | ⟨hlost, hturn⟩
  · rw [hturn] at hstep
    refine of_closed hpings (r := result) ?_ ?_ (hfails.mpr hlost)
    · rw [hresult, hphase]
      rfl
    · rw [outcome?, hstep]
  · rw [hturn] at hstep
    refine of_open hpings ?_ ?_ ?_
    · rw [hstep, hphase]
      rfl
    · rw [outcome?, hstep]
    · rw [hfails, show (Phase.writing sweep d).fails t.connection = false from hlost]
      exact Bool.false_ne_true

theorem isCancelled_step_of_same (hconn : (t.turn now e).2.connection = t.connection)
    (hstop : (t.turn now e).2.engine.stopped = e.stopped) :
    (t.step now e).1.isCancelled (t.step now e).2 = t.isCancelled e := by
  simp only [Trace.step, isCancelled, hconn, hstop]

theorem turn_ne_proceed (hnot : t.isCancelled e = false)
    (hcancel : (t.step now e).1.isCancelled (t.step now e).2) {w : World} {flight : Flight}
    (hw : w = ((t.world now e).receive flight.mailbox).2) {sweep : Sweep} {hop : Hop} :
    t.turn now e ≠ (w.forget flight.token flight.mailbox).proceed sweep hop := by
  subst hw
  intro hsame
  -- No event happens when a mailbox is read, so nobody is called off.
  have hconn : (t.turn now e).2.connection = t.connection := by
    rw [hsame, World.connection_proceed]
    rfl
  have hstop : (t.turn now e).2.engine.stopped = e.stopped := by
    rw [hsame, World.stopped_proceed]
    rfl
  rw [isCancelled_step_of_same hconn hstop, hnot] at hcancel
  cases hcancel

theorem awaiting {sweep : Sweep} {flight : Flight} (hphase : t.phase = .awaiting sweep flight)
    (hstand : t.phase.Standing e.registry) (hnot : t.isCancelled e = false)
    (hcancel : (t.step now e).1.isCancelled (t.step now e).2) :
    t.Interrupted now e (t.step now e).1 := by
  have hpings := pings_step now hstand
  have hopen := hstand.isOpen (by rw [hphase, Phase.sweep?])
  have hsweep : t.phase.sweep? = some sweep := by rw [hphase, Phase.sweep?]
  have hturn : t.turn now e = (t.world now e).look sweep flight := by
    simp [turn, hphase, hnot]
  have hstep : (t.step now e).1.phase = (t.turn now e).1 := rfl
  have hfails : t.Fails now e ↔ e.registry.mailbox? flight.mailbox = some .waiting ∧
      ((t.world now e).listen flight).1 = .closed := by
    simp only [Fails, hphase]
  rw [hphase] at hstand
  obtain ⟨hstate, httl, hass⟩ := hstand
  unfold World.look at hturn
  split at hturn
  · rename_i hop w' h
    have hbox := World.receive_hop h
    obtain ⟨entry, ip, at_, kind, hentry, rfl⟩ := hass.hop _ hbox
    rw [World.conclude_eq_proceed (hstate.trans (by rw [← hentry]; rfl))] at hturn
    exact absurd hturn (turn_ne_proceed hnot hcancel (by rw [h]))
  · rename_i w' h
    rw [httl, World.conclude_eq_proceed hstate] at hturn
    exact absurd hturn (turn_ne_proceed hnot hcancel (by rw [h]))
  · rename_i w' h
    obtain ⟨hbox, rfl⟩ := World.receive_empty h
    have hl := (t.world now e).lapse_listen flight
    split at hturn
    · rename_i w₁ hsign
      rw [hsign] at hl
      rw [hl.now, httl, World.conclude_eq_proceed hstate] at hturn
      rw [hturn] at hstep
      refine of_proceed hpings hsweep ⟨rfl, rfl⟩ hstep
        (.inr ⟨sweep, flight, hphase, hbox, by rw [hsign], rfl⟩) ?_
      rw [hfails, hsign]
      simp
    · rename_i w₁ hsign
      rw [World.giveUp_of_open hopen] at hturn
      rw [hturn] at hstep
      refine of_closed hpings ?_ (by rw [outcome?, hstep]; rfl) (hfails.mpr ⟨hbox, by rw [hsign]⟩)
      rw [hphase]
      rfl
    · rename_i w₁ hsign
      have hsent : ¬ t.Fails now e := by
        rw [hfails, hsign]
        simp
      split at hturn
      · rw [httl, World.conclude_eq_proceed hstate] at hturn
        rw [hturn] at hstep
        exact of_proceed hpings hsweep ⟨rfl, rfl⟩ hstep (.inl rfl) hsent
      · rw [hturn] at hstep
        refine of_open hpings ?_ (by rw [outcome?, hstep]) hsent
        rw [hstep, hphase]

theorem turn (hvalid : t.Valid e) (hnot : t.isCancelled e = false)
    (hcancel : (t.step now e).1.isCancelled (t.step now e).2) (hopen : t.outcome? = none) :
    t.Interrupted now e (t.step now e).1 := by
  have hstand := hvalid.standing
  cases hphase : t.phase with
  | opening => exact opening hphase hstand
  | settling sweep giveUp wake => exact settling hphase hstand hnot
  | writing sweep d => exact writing hphase hstand
  | awaiting sweep flight => exact awaiting hphase hstand hnot hcancel
  | finished outcome at_ => simp [outcome?, hphase] at hopen

end Interrupted

end Trace

theorem Fleet.pings_of_opening {e : Engine} {now : Instant} {setups : List Trace.Setup}
    (hs : e.registry.Sound) {f : Fleet}
    (hr : Relation.ReflTransGen Step (e.fleet now setups) f) :
    f.Each fun _ now e' t => t.OnCourse e.config t.connection.behaviour now e' ∧
      (t.phase = .opening → t.connection.pings = []) := by
  refine Each.onCourse ?_ ?_ ?_ (each_fleet ?_) hr
  · intro i now e' t es hcourse h hc hnext hphase
    exact absurd hphase hc.ne_opening
  · intro i j now e' t u es hne h h' hcourse' hc hnext'
    exact h
  · intro i now e' t m h hidle hwake
    exact h
  · intro i s hs'
    exact ⟨.start s now hs, fun _ => rfl⟩

/-- From the step on in which a trace is called off it sends nothing more and records no reply. -/
theorem Engine.cancellation_of_run (e : Engine) (history : List Registry.Operation) (now : Instant)
    (setups : List Trace.Setup) {f : Fleet}
    (hf : Relation.ReflTransGen Fleet.Step ((e.withHistory history).fleet now setups) f) {i : Nat}
    {t : Trace} (ht : f.traces[i]? = some t) :
    (Acc (fun k g => Fleet.Step g k) f ∧
      ∀ k, Relation.ReflTransGen Fleet.Step f k → (∀ g, ¬ Fleet.Step k g) →
        ∃ v outcome, k.traces[i]? = some v ∧ v.outcome? = some outcome) ∧
    (t.isCancelled f.engine → ∀ k, Relation.ReflTransGen Fleet.Step f k →
      ∃ v, k.traces[i]? = some v ∧ t.Unwound f.now v) ∧
    (t.phase = .opening → t.connection.pings = [] ∧ t.phase.hops = []) ∧
    (t.isCancelled f.engine = false → t.outcome? = none → ∀ g, Fleet.Step f g →
      ∃ u, g.traces[i]? = some u ∧ (u.isCancelled g.engine →
        g.now = f.now ∧ (u = t ∨ t.Interrupted f.now f.engine u) ∧
        ∀ k, Relation.ReflTransGen Fleet.Step g k →
          ∃ v, k.traces[i]? = some v ∧ u.Unwound g.now v)) := by
  have hvalid : f.Valid := ((e.valid_fleet history now setups).reaches hf).1
  refine ⟨⟨hvalid.halts, ?_⟩, ?_, ?_, ?_⟩
  · intro k hk hlast
    have hi : i < k.traces.length := by
      rw [Fleet.length_reaches hk]
      exact (List.getElem?_eq_some_iff.mp ht).1
    obtain ⟨outcome, hout⟩ :=
      Fleet.exists_outcome (Fleet.isFinished_of_halted hlast) (List.getElem_mem hi)
    exact ⟨_, outcome, List.getElem?_eq_getElem hi, hout⟩
  · intro hcancel k hk
    exact hvalid.unwound ht hcancel hk
  · intro hphase
    obtain ⟨-, hpings⟩ := Fleet.pings_of_opening (Registry.sound_after_empty history) hf i t ht
    exact ⟨hpings hphase, by rw [hphase]; rfl⟩
  · intro hnot hopen g hs
    obtain ⟨u, hu, hseen⟩ := hs.seen ht
    refine ⟨u, hu, fun hcancel => ?_⟩
    have hafter := fun k (hk : Relation.ReflTransGen Fleet.Step g k) =>
      (hvalid.step hs).1.unwound hu hcancel hk
    cases hseen with
    | turn hready hnow he =>
        rw [he] at hcancel
        exact ⟨hnow, .inr (.turn (hvalid.traces t (List.mem_of_getElem? ht)) hnot hcancel hopen),
          hafter⟩
    | other hne hj hready hnow he => exact ⟨hnow, .inl rfl, hafter⟩
    | wait hidle hwake hnow he =>
        rw [he, hnot] at hcancel
        cases hcancel

def Engine.ordinary : Engine where
  config := Config.default
  wallClock := fun _ => ⟨0, 0⟩

def Trace.Setup.calledOff : Setup where
  id := "a"
  independent := true
  behaviour :=
    { localAddress := .ok (.v4 ⟨192, 0, 2, 10⟩ 443)
      peerAddress := fun _ => .ok (.v4 ⟨198, 51, 100, 20⟩ 51234)
      write := fun ttl =>
        { reactions := if ttl = 1 then [(Span.ofMillis 10, .quoting
            (.between (.v4 ⟨192, 0, 2, 10⟩ 443) (.v4 ⟨198, 51, 100, 20⟩ 51234)) ⟨0, 0, false⟩
            (.v4 ⟨10, 0, 0, 1⟩) .timeExceeded 0)] else [] }
      script := [(Span.ofMillis 300, .cancel)] }

def Fleet.calledOff : Fleet :=
  ((Engine.ordinary.withHistory []).fleet 0 [Trace.Setup.calledOff]).runFor 9

theorem Fleet.reaches_calledOff : Relation.ReflTransGen Step
    ((Engine.ordinary.withHistory []).fleet 0 [Trace.Setup.calledOff]) calledOff :=
  reaches_runFor ..

theorem Fleet.calledOff_before : calledOff.isFinished = false ∧
    calledOff.traces[0]?.map (fun t => (t.isCancelled calledOff.engine, t.outcome?.isSome)) =
      some (false, false) := by
  decide +kernel

theorem Fleet.calledOff_after : calledOff.step.traces[0]?.map (fun u =>
      (u.isCancelled calledOff.step.engine, u.phase.hops, u.connection.pings.length,
        u.outcome?.isSome, u.phase.fails u.connection)) =
    some (true, [.resolved 1 (.v4 ⟨10, 0, 0, 1⟩) (Span.ofMillis 10) .timeExceeded], 2, false,
      false) := by
  decide +kernel

theorem Fleet.isFinished_calledOff : calledOff.step.run.isFinished = true := by
  decide +kernel

theorem Engine.cancellation_of_brief_run :
    ∃ v r, Fleet.calledOff.step.run.traces[0]? = some v ∧
      v.outcome? = some (.error (.cancelled r)) ∧
      r.hops = [.resolved 1 (.v4 ⟨10, 0, 0, 1⟩) (Span.ofMillis 10) .timeExceeded] ∧
      v.connection.pings.length = 2 := by
  obtain ⟨hopen, hbefore⟩ := Fleet.calledOff_before
  obtain ⟨t, ht, hstate⟩ := Option.map_eq_some_iff.mp hbefore
  obtain ⟨hnot, hidle⟩ := Prod.mk.inj hstate
  obtain ⟨-, -, -, hfires⟩ :=
    Engine.cancellation_of_run .ordinary [] 0 [.calledOff] Fleet.reaches_calledOff ht
  obtain ⟨u, hu, hlater⟩ :=
    hfires hnot (by simpa using hidle) Fleet.calledOff.step (Fleet.step_of_open hopen)
  obtain ⟨u', hu', hstate'⟩ := Option.map_eq_some_iff.mp Fleet.calledOff_after
  obtain rfl : u' = u := Option.some.inj (hu'.symm.trans hu)
  simp only [Prod.mk.injEq] at hstate'
  obtain ⟨hcancel, hhops, hpings, hnone, hfails⟩ := hstate'
  obtain ⟨-, -, hunwound⟩ := hlater hcancel
  obtain ⟨v, hv, hv'⟩ := hunwound Fleet.calledOff.step.run (Fleet.reaches_run _)
  obtain ⟨outcome, hout⟩ :=
    Fleet.exists_outcome Fleet.isFinished_calledOff (List.mem_of_getElem? hv)
  rcases hv'.outcome (by simpa using hnone) outcome hout with ⟨r, hr, rfl⟩ | ⟨hopening, -⟩
  · rw [hfails] at hout
    exact ⟨v, r, hv, hout, hr.trans hhops, by rw [hv'.pings, hpings]⟩
  · rw [hopening] at hhops
    cases hhops

end InbandTrace
