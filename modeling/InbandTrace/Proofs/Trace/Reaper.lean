import InbandTrace.Proofs.Trace.Cancellation
import InbandTrace.Proofs.Trace.Deadline
import InbandTrace.Proofs.Trace.Shadow
import InbandTrace.Proofs.Trace.Swept

namespace InbandTrace

theorem Event.Solitary.abstains {x : Event} (h : x.Solitary) : x.Abstains := by
  cases x with
  | registry op => exact h.elim
  | _ => trivial

theorem Behaviour.Brings.mono {b : Behaviour} {P Q : Event → Prop} (h : b.Brings P)
    (hpq : ∀ x, P x → Q x) : b.Brings Q :=
  ⟨fun x hx => hpq _ (h.1 x hx), fun ttl r hr payload => hpq _ (h.2 ttl r hr payload)⟩

namespace World

theorem Course.sentAt_of_writing {w : World} {phase : Phase} {es : Agenda} {turn : Turn}
    (hc : Course w phase es turn) {next : Sweep} {d : Departure} (h : turn.1 = .writing next d) :
    d.flight.sentAt = w.now ∧ ∃ sweep giveUp wake, phase = .settling sweep giveUp wake := by
  have hproceed : ∀ {w' : World} {sweep : Sweep} {hop : Hop},
      (w'.proceed sweep hop).1 ≠ .writing next d := by
    intro w' sweep hop hwriting
    have hnone := flight?_proceed w' sweep hop
    rw [hwriting] at hnone
    cases hnone
  cases hc with
  | launched hw hr hset hw' hd =>
      cases h
      exact ⟨by rw [hd], _, _, _, rfl⟩
  | collided hw hr => exact absurd h hproceed
  | replied hbox httl => exact absurd h hproceed
  | evicted httl => exact absurd h hproceed
  | echoed hw hpong httl => exact absurd h hproceed
  | late hw ht httl => exact absurd h hproceed
  | _ => cases h

end World

namespace Fleet

theorem lone_of_reaches {e : Engine} {now : Instant} {s : Trace.Setup}
    (hs : e.registry.Lone none) (hb : s.behaviour.Brings Event.Solitary) {f : Fleet}
    (hr : Relation.ReflTransGen Step (e.fleet now [s]) f) :
    f.Alone fun now e' t => t.OnCourse e.config s.behaviour now e' ∧
      e'.registry.Lone t.phase.flight? ∧ ∀ sweep d, t.phase = .writing sweep d → now ≤ d.done := by
  have hstart : (e.fleet now [s]).Alone fun now e' t =>
      t.OnCourse e.config s.behaviour now e' ∧ e'.registry.Lone t.phase.flight? ∧
        ∀ sweep d, t.phase = .writing sweep d → now ≤ d.done :=
    ⟨s.start now, rfl, .start s now hs.sound, hs, fun _ _ hphase => by cases hphase⟩
  refine hstart.reaches ?_ ?_ hr
  · rintro now e' t ⟨hcourse, hlone, -⟩ hready
    obtain ⟨es, hc⟩ := Trace.course_turn now hcourse.valid.standing
    have hnext := hcourse.step hready
    have hcustody := hc.custody (P := fun _ => True) fun _ _ _ _ => trivial
    refine ⟨hnext, hcustody.lone hlone ?_, ?_⟩
    · exact hnext.allowed hcourse.kept hc (hb.mono fun x hx => hx.passing)
    · intro next d hwriting
      obtain ⟨hsent, sweep, giveUp, wake, hphase⟩ := hc.sentAt_of_writing hwriting
      rw [Trace.done_of_turn hcourse.valid.standing hphase (Prod.ext hwriting rfl), hsent]
      exact Nat.le_add_right _ _
  · rintro now e' t m ⟨hcourse, hlone, hdone⟩ hidle hwake
    refine ⟨hcourse.wait (Nat.le_max_left ..), hlone, ?_⟩
    intro sweep d hphase
    rw [Trace.wake?, hphase] at hwake
    cases hwake
    exact Nat.max_le.mpr ⟨hdone sweep d hphase, Nat.le_refl _⟩

theorem Valid.pings_of_reaches {f g : Fleet} (h : f.Valid) {t u : Trace} (ht : f.traces = [t])
    (hu : g.traces = [u]) (hr : Relation.ReflTransGen Step f g) :
    ∀ p ∈ t.connection.pings, p ∈ u.connection.pings := by
  have hturn : ∀ now e (v : Trace), v.Valid e →
      (∀ p ∈ t.connection.pings, p ∈ v.connection.pings) → v.ready now e →
      ∀ p ∈ t.connection.pings, p ∈ (v.step now e).1.connection.pings := by
    intro now e v hvalid hp hready p hin
    rcases Trace.Interrupted.pings_step now hvalid.standing with hsame | ⟨p', hmore, -⟩
    · rw [hsame]
      exact hp p hin
    · rw [hmore]
      exact List.mem_cons_of_mem _ (hp p hin)
  obtain ⟨v, hv, hpings⟩ := h.follow (i := 0) hturn (fun _ _ _ _ _ hp _ => hp)
    (fun _ _ _ _ hp _ _ => hp) (by rw [ht]; rfl) (fun _ hp => hp) hr
  rw [hu] at hv
  cases hv
  exact hpings

theorem Valid.reaches_end {f g k : Fleet} (h : f.Valid) (hlength : f.traces.length = 1)
    (hg : Relation.ReflTransGen Step f g) (hk : Relation.ReflTransGen Step f k)
    (hfin : k.isFinished) : Relation.ReflTransGen Step g k := by
  have hlast : (runFor g.potential g).isFinished :=
    isFinished_runFor (h.reaches hg).1 (Nat.le_refl _)
  have hreach := reaches_runFor g.potential g
  rwa [end_unique hlength (hg.trans hreach) hlast hk hfin] at hreach

theorem sheltered_of_reaches {e : Engine} {now : Instant} {s : Trace.Setup}
    (hs : e.registry.Lone none) (hb : s.behaviour.Brings Event.Solitary) {f : Fleet} {t : Trace}
    (hr : Relation.ReflTransGen Step (e.fleet now [s]) f) (ht : f.traces = [t])
    (hbrief : ∀ p ∈ t.connection.pings, (s.behaviour.write p.ttl).takes < e.config.hopTimeout) :
    t.Sheltered f.now f.engine := by
  obtain ⟨u, hu, hcourse, hlone, hdone⟩ := lone_of_reaches hs hb hr
  obtain ⟨v, tried, hv, -, hwired⟩ := wired_of_reaches hs.sound hr
  have habstains : ∀ s' ∈ [s], s'.behaviour.Brings Event.Abstains := by
    intro s' hs'
    rw [List.mem_singleton.mp hs']
    exact hb.mono fun x hx => hx.abstains
  obtain ⟨-, hprompt⟩ := prompt_of_reaches hs.sound habstains hr 0 t (by simp [ht])
  rw [ht] at hu hv
  cases hu
  cases hv
  refine ⟨?_, hlone, ?_⟩
  · intro x hx
    refine Connection.brings_program (hcourse.behaviour ▸ hb) x ?_
    rw [hcourse.kept.split]
    exact List.mem_append_right _ hx
  · intro sweep d hphase
    have hstand := hcourse.valid.standing
    have hrun := hprompt.running
    rw [hphase] at hwired hstand hrun
    obtain ⟨-, hlast⟩ := hwired.ttl_of_writing
    obtain ⟨-, hflight, hends⟩ := hrun
    have httl : d.flight.ttl = sweep.ttl := hstand.2.1
    have hshort := hbrief _ (List.mem_of_mem_head? hlast)
    calc f.now ≤ d.done := hdone sweep d hphase
      _ = d.flight.sentAt + (s.behaviour.write sweep.ttl.toNat).takes := by
        rw [hends, hcourse.behaviour, httl]
      _ < d.flight.sentAt + e.config.hopTimeout := Nat.add_lt_add_left hshort _
      _ = d.flight.deadline := hflight.deadline.symm

/-- A trace by itself, and the same in some guise. The clock may have gone ahead there, as long as
nothing is to be done in between. -/
structure Masked (f f' : Fleet) (t : Trace) (g : Guise) : Prop where
  traces : f.traces = [t]
  traces' : f'.traces = [t.guise g]
  engine : f'.engine = f.engine
  fits : t.connection.Fits g
  ahead : f.now ≤ f'.now
  idle : f.now = f'.now ∨
    t.ready f.now f.engine = false ∧ ∀ m, t.wake? = some m → f'.now ≤ m

namespace Masked

variable {f f' k : Fleet} {t : Trace} {g : Guise}

theorem start (e : Engine) (now : Instant) (s : Trace.Setup) {b' : Behaviour}
    (h : s.behaviour.Swept b') :
    ∃ g, (e.fleet now [s]).Masked (e.fleet now [{ s with behaviour := b' }]) (s.start now) g := by
  obtain ⟨g, hsame, hfits⟩ := Connection.start_guise h now
  refine ⟨g, rfl, ?_, rfl, ⟨hfits.agenda, hfits.ordered, hfits.prompted⟩, Nat.le_refl now, .inl rfl⟩
  change [Trace.Setup.start { s with behaviour := b' } now] = _
  simp only [Trace.Setup.start, hsame]
  rfl

theorem wait (h : f.Masked f' t g) (hidle : (t.guise g).ready f'.now f'.engine = false)
    {m' : Instant} (hwake : (t.guise g).wake? = some m') (hnow : k.now = max f'.now m')
    (he : k.engine = f'.engine) (ht : k.traces = [t.guise g]) : f.Masked k t g := by
  have hidle' : t.ready f'.now f'.engine = false := by
    refine Bool.eq_false_iff.mpr fun hready => ?_
    rw [Trace.ready_guise h.fits hready] at hidle
    cases hidle
  have hlag : t.ready f.now f.engine = false ∧ ∀ m, t.wake? = some m → f'.now ≤ m := by
    rcases h.idle with hsame | hlag
    · rw [← hsame, h.engine] at hidle'
      exact ⟨hidle', fun m hm => hsame ▸ Trace.le_wake hidle' hm⟩
    · exact hlag
  refine ⟨h.traces, ht, he.trans h.engine, h.fits, ?_, .inr ⟨hlag.1, ?_⟩⟩
  · rw [hnow]
    exact Nat.le_trans h.ahead (Nat.le_max_left ..)
  -- A sweep may wake the guise early, never late.
  · intro m hm
    obtain ⟨m₁, hle, hm₁⟩ := Trace.wake?_guise h.fits hm
    cases hwake.symm.trans hm₁
    rw [hnow]
    exact Nat.max_le.mpr ⟨hlag.2 m hm, hle⟩

theorem catchUp (h : f.Masked f' t g) (hready : t.ready f'.now f.engine) :
    ∃ f₁, Relation.ReflTransGen Step f f₁ ∧ f₁.Masked f' t g ∧ f₁.now = f'.now := by
  rcases h.idle with hsame | ⟨hidle, hlag⟩
  · exact ⟨f, .refl, h, hsame⟩
  · obtain ⟨m, hm⟩ := Trace.exists_wake_of_ready hready
    have hsame : m = f'.now := by
      refine Nat.le_antisymm (Nat.le_of_not_lt fun hlt => ?_) (hlag m hm)
      rw [Trace.idle_before_wake hidle hm hlt] at hready
      cases hready
    obtain ⟨f₁, hs, hnow, he, ht⟩ := wait_alone h.traces hidle hm
    rw [hsame, Nat.max_eq_right h.ahead] at hnow
    exact ⟨f₁, .single hs, ⟨ht, h.traces', h.engine.trans he.symm, h.fits, Nat.le_of_eq hnow,
      .inl hnow⟩, hnow⟩

theorem act (h : f.Masked f' t g) (hnow : f.now = f'.now) (hready : t.ready f.now f.engine)
    (hshelter : t.Sheltered f.now f.engine) (hnow' : k.now = f'.now)
    (he : k.engine = ((t.guise g).step f'.now f'.engine).2)
    (ht : k.traces = [((t.guise g).step f'.now f'.engine).1]) :
    ∃ f₁ t₁ g₁, Relation.ReflTransGen Step f f₁ ∧ f₁.Masked k t₁ g₁ := by
  obtain ⟨f₁, hs, hnow₁, he₁, ht₁⟩ := act_alone h.traces hready
  obtain ⟨g₁, hstep, hfits⟩ := Trace.guise_step h.fits hshelter
  rw [← hnow, h.engine, hstep] at he ht
  have hsame : f₁.now = k.now := hnow₁.trans (hnow.trans hnow'.symm)
  exact ⟨f₁, _, g₁, .single hs, ht₁, ht, he.trans he₁.symm, hfits, Nat.le_of_eq hsame, .inl hsame⟩

theorem look (h : f.Masked f' t g) (hidle : t.ready f'.now f.engine = false)
    (hready : (t.guise g).ready f'.now f'.engine) (hshelter : t.Sheltered f.now f.engine)
    (hnow : k.now = f'.now) (he : k.engine = ((t.guise g).step f'.now f'.engine).2)
    (ht : k.traces = [((t.guise g).step f'.now f'.engine).1]) : ∃ g₁, f.Masked k t g₁ := by
  rw [h.engine] at hready he ht
  obtain ⟨sweep, flight, hphase⟩ := Trace.awaiting_of_ready_guise hready hidle
  have hshelter' : t.Sheltered f'.now f.engine := by
    refine ⟨hshelter.agenda, hshelter.lone, ?_⟩
    intro sweep' d hwriting
    rw [hphase] at hwriting
    cases hwriting
  obtain ⟨g₁, hstep, hfits⟩ := Trace.guise_step h.fits hshelter'
  rw [Trace.step_of_idle hphase hidle] at hstep hfits
  rw [hstep] at he ht
  exact ⟨g₁, h.traces, ht, he, hfits, hnow ▸ h.ahead, hnow ▸ h.idle⟩

theorem step (h : f.Masked f' t g)
    (hshelter : ∀ f₁ t₁, Relation.ReflTransGen Step f f₁ → f₁.traces = [t₁] →
      t₁.Sheltered f₁.now f₁.engine) (hs : Step f' k) :
    ∃ f₁ t₁ g₁, Relation.ReflTransGen Step f f₁ ∧ f₁.Masked k t₁ g₁ := by
  rcases step_alone h.traces' hs with ⟨hready, hnow, he, ht⟩ | ⟨m, hidle, hwake, hnow, he, ht⟩
  · -- The trace may be up only on account of a sweep; then it stays where it is without the guise.
    cases hown : t.ready f'.now f.engine with
    | false =>
        obtain ⟨g₁, hnext⟩ := h.look hown hready (hshelter f t .refl h.traces) hnow he ht
        exact ⟨f, t, g₁, .refl, hnext⟩
    | true =>
        obtain ⟨f₁, hreach, hmasked, hsame⟩ := h.catchUp hown
        have hready₁ : t.ready f₁.now f₁.engine := by
          rw [hsame, ← hmasked.engine, h.engine]
          exact hown
        obtain ⟨f₂, t₂, g₂, hreach', hnext⟩ := hmasked.act hsame hready₁
          (hshelter f₁ t hreach hmasked.traces) hnow he ht
        exact ⟨f₂, t₂, g₂, hreach.trans hreach', hnext⟩
  · exact ⟨f, t, g, .refl, h.wait hidle hwake hnow he ht⟩

theorem reaches (h : f.Masked f' t g)
    (hshelter : ∀ f₁ t₁, Relation.ReflTransGen Step f f₁ → f₁.traces = [t₁] →
      t₁.Sheltered f₁.now f₁.engine) (hr : Relation.ReflTransGen Step f' k) :
    ∃ f₁ t₁ g₁, Relation.ReflTransGen Step f f₁ ∧ f₁.Masked k t₁ g₁ := by
  induction hr with
  | refl => exact ⟨f, t, g, .refl, h⟩
  | tail _ hs ih =>
      obtain ⟨f₁, t₁, g₁, hreach, hmasked⟩ := ih
      obtain ⟨f₂, t₂, g₂, hreach', hnext⟩ := hmasked.step
        (fun f' t' hf' => hshelter f' t' (hreach.trans hf')) hs
      exact ⟨f₂, t₂, g₂, hreach.trans hreach', hnext⟩

end Masked

end Fleet

namespace World

def swept (w : World) (due : Instant) : World := w.withRegistry (w.engine.registry.reap due).2

/-- The wait for a hop that the reaper ends was over by then, and its hop is the timeout that comes
at the deadline if nothing has been heard. -/
structure Reaped (w : World) (sweep : Sweep) (flight : Flight) (due : Instant) : Prop where
  late : flight.deadline ≤ due
  hop : (w.swept due).look sweep flight =
    (w.forget flight.token flight.mailbox).conclude sweep (.timedOut flight.ttl)
  same : flight.deadline ≤ w.now → ∀ w', w.listen flight = (.nothing, w') →
    (w.look sweep flight).1 = ((w.swept due).look sweep flight).1

variable {w w' : World} {sweep : Sweep} {flight : Flight} {due : Instant}

theorem phase_proceed (h : w.Follows w') (sweep : Sweep) (hop : Hop) :
    (w'.proceed sweep hop).1 = (w.proceed sweep hop).1 := by
  have hcivil : w'.civil = w.civil := by
    rw [civil, civil, h.wallClock, h.now]
  unfold proceed
  split
  · simp only [finish, hcivil, h.now]
  · simp only [settling, h.now]

theorem reaped (hlone : w.engine.registry.Lone (some flight))
    (hstand : Phase.Standing w.engine.registry (.awaiting sweep flight))
    (hne : (w.engine.registry.reap due).2 ≠ w.engine.registry) : w.Reaped sweep flight due := by
  obtain ⟨hlate, hwaits, hclosed⟩ := hlone.receive_of_reap hne
  obtain ⟨hstate, httl, -⟩ := hstand
  have hread : (w.swept due).receive flight.mailbox = (.closed, w.swept due) := by
    rw [receive, show (w.swept due).engine.registry = (w.engine.registry.reap due).2 from rfl,
      hclosed]
    rfl
  have hread' : w.receive flight.mailbox = (.empty, w) := by
    simp only [receive, Registry.receive, hwaits]
    rfl
  have hleft : (w.swept due).forget flight.token flight.mailbox =
      w.forget flight.token flight.mailbox := by
    simp only [forget, swept, withRegistry, (hlone.reap due).forget, hlone.forget,
      hlone.without_reap due]
  have hlook : (w.swept due).look sweep flight =
      (w.forget flight.token flight.mailbox).conclude sweep (.timedOut flight.ttl) := by
    simp only [look, hread, hleft]
  refine ⟨hlate, hlook, ?_⟩
  intro hover w' hsign
  have hfollows : w.Follows w' := by
    have hall := w.evolves_listen flight w.allowed_true
    rw [hsign] at hall
    exact hall
  have hover' : flight.deadline ≤ w'.now := hfollows.now ▸ hover
  have hlook' : w.look sweep flight =
      (w'.forget flight.token flight.mailbox).conclude sweep (.timedOut flight.ttl) := by
    simp only [look, hread', hsign, if_pos hover']
  rw [hlook, hlook', httl, conclude_eq_proceed hstate, conclude_eq_proceed hstate,
    phase_proceed (hfollows.trans (follows_forget ..)), phase_proceed (follows_forget ..)]

end World

/-- A run is the same if the registry is swept beside it, at whatever times, unless a write outlasts
the timeout. -/
theorem Engine.outcome_of_swept_run (e : Engine) (history : List Registry.Operation)
    (hfree : (Registry.empty.after history).entries = []) (now : Instant) (s : Trace.Setup)
    (hb : s.behaviour.Brings Event.Solitary) {b' : Behaviour} (hswept : s.behaviour.Swept b')
    {t : Trace} (ht : ((e.withHistory history).run now [s.start now]).traces = [t])
    (hbrief : ∀ p ∈ t.connection.pings, (s.behaviour.write p.ttl).takes < e.config.hopTimeout) :
    let e₀ := e.withHistory history
    let s' := { s with behaviour := b' }
    (∀ f', Relation.ReflTransGen Fleet.Step (e₀.fleet now [s']) f' →
      ∃ f v v', Relation.ReflTransGen Fleet.Step (e₀.fleet now [s]) f ∧ f.traces = [v] ∧
        f'.traces = [v'] ∧ f'.engine = f.engine ∧ v'.phase = v.phase ∧
        v'.connection.pings = v.connection.pings ∧
        ∀ sweep flight due, v'.phase = .awaiting sweep flight →
          (f'.engine.registry.reap due).2 ≠ f'.engine.registry →
          (v'.world f'.now f'.engine).Reaped sweep flight due) ∧
    ∃ t' outcome, (e₀.run now [s'.start now]).traces = [t'] ∧
      t.outcome? = some outcome ∧ t'.outcome? = some outcome ∧ t'.phase = t.phase ∧
      t'.connection.pings = t.connection.pings ∧ t'.connection.ttl = t.connection.ttl ∧
      (e₀.run now [s'.start now]).engine = (e₀.run now [s.start now]).engine := by
  intro e₀ s'
  have hsound : e₀.registry.Sound := Registry.sound_after_empty history
  have hlone : e₀.registry.Lone none := hsound.lone hfree
  have hend : Relation.ReflTransGen Fleet.Step (e₀.fleet now [s]) (e₀.run now [s.start now]) :=
    Fleet.reaches_run _
  have hover : (e₀.run now [s.start now]).isFinished := e.isFinished_run history now [s]
  have hvalid : (e₀.fleet now [s]).Valid := e.valid_fleet history now [s]
  -- What is sent up to a state is among what has been sent at the end.
  have hshelter : ∀ f v, Relation.ReflTransGen Fleet.Step (e₀.fleet now [s]) f → f.traces = [v] →
      v.Sheltered f.now f.engine := by
    intro f v hf hv
    have hrest := hvalid.reaches_end rfl hf hend hover
    exact Fleet.sheltered_of_reaches hlone hb hf hv fun p hp =>
      hbrief p ((hvalid.reaches hf).1.pings_of_reaches hv ht hrest p hp)
  obtain ⟨g, hmasked⟩ := Fleet.Masked.start e₀ now s hswept
  have hall := fun f' (hf' : Relation.ReflTransGen Fleet.Step (e₀.fleet now [s']) f') =>
    hmasked.reaches hshelter hf'
  refine ⟨?_, ?_⟩
  · intro f' hf'
    obtain ⟨f, v, g, hf, hmasked⟩ := hall f' hf'
    refine ⟨f, v, v.guise g, hf, hmasked.traces, hmasked.traces', hmasked.engine, rfl, rfl, ?_⟩
    intro sweep flight due hphase hne
    replace hphase : v.phase = .awaiting sweep flight := hphase
    have hown := (hshelter f v hf hmasked.traces).lone
    have hstand := ((hvalid.reaches hf).1.traces v (by simp [hmasked.traces])).standing
    rw [hphase, ← hmasked.engine] at hown hstand
    exact World.reaped (w := (v.guise g).world f'.now f'.engine) hown hstand hne
  · obtain ⟨f, v, g, hf, hmasked⟩ := hall _ (Fleet.reaches_run (e₀.fleet now [s']))
    obtain ⟨outcome, at_, hphase⟩ := e.finished_of_run history hmasked.traces'
    have hout : v.outcome? = some outcome := by
      rw [Trace.outcome?, show v.phase = _ from hphase]
    have hlast : f.isFinished := by simp [Fleet.isFinished, hmasked.traces, hout]
    have hsame := Fleet.end_unique rfl hf hlast hend hover
    have htraces := hmasked.traces
    rw [hsame, ht] at htraces
    cases htraces
    exact ⟨t.guise g, outcome, hmasked.traces', hout, hout, rfl, rfl, rfl, hsame ▸ hmasked.engine⟩

def Engine.brisk : Engine where
  config := { Config.default with maxHops := 2, hopTimeout := Span.ofMillis 100 }
  wallClock := fun _ => ⟨0, 0⟩

def Trace.Setup.brisk : Setup where
  id := "a"
  behaviour :=
    { localAddress := .ok (.v4 ⟨192, 0, 2, 10⟩ 443)
      peerAddress := fun _ => .ok (.v4 ⟨198, 51, 100, 20⟩ 51234)
      write := fun ttl =>
        { pause := some (Span.ofMillis 40)
          reactions := if ttl = 1 then [(Span.ofMillis 60, .quoting
            (.between (.v4 ⟨192, 0, 2, 10⟩ 443) (.v4 ⟨198, 51, 100, 20⟩ 51234)) ⟨0, 0, false⟩
            (.v4 ⟨10, 0, 0, 1⟩) .timeExceeded 0)] else [] } }

def Behaviour.briskSwept : Behaviour :=
  let b := Trace.Setup.brisk.behaviour
  { b with
    script := [(Span.ofMillis 20, .reap 0)]
    write := fun ttl =>
      { b.write ttl with
        reactions := (b.write ttl).reactions ++
          [(Span.ofMillis 80, fun _ => .reap 0), (Span.ofMillis 100, fun _ => .reap 0)] } }

theorem Behaviour.swept_brisk : Trace.Setup.brisk.behaviour.Swept briskSwept := by
  refine ⟨rfl, .sweep _ .nil, fun p => ?_⟩
  by_cases hp : p.ttl = 1
  · simp only [prompted, briskSwept, Trace.Setup.brisk, hp]
    exact .keep _ (.sweep _ (.sweep _ .nil))
  · simp only [prompted, briskSwept, Trace.Setup.brisk, hp]
    exact .sweep _ (.sweep _ .nil)

theorem Trace.Setup.solitary_brisk : brisk.behaviour.Brings Event.Solitary := by
  refine ⟨nofun, ?_⟩
  intro ttl r hr payload
  by_cases httl : ttl = 1
  · simp only [brisk, httl, if_true, List.mem_singleton] at hr
    rw [hr]
    trivial
  · simp [brisk, httl] at hr

theorem Trace.Setup.takes_brisk (ttl : Nat) :
    (brisk.behaviour.write ttl).takes < Engine.brisk.config.hopTimeout := by
  simp only [brisk, Write.takes]
  rw [Option.getD_some]
  decide

def Fleet.brisk : Fleet := (Engine.brisk.withHistory []).run 0 [Trace.Setup.brisk.start 0]

def Fleet.briskSwept : Fleet := (Engine.brisk.withHistory []).run 0
  [Trace.Setup.start { Trace.Setup.brisk with behaviour := .briskSwept } 0]

theorem Fleet.hops_brisk : brisk.traces.map (fun t => t.phase.hops) =
    [[.resolved 1 (.v4 ⟨10, 0, 0, 1⟩) (Span.ofMillis 60) .timeExceeded, .timedOut 2]] := by
  decide +kernel

theorem Fleet.captures_briskSwept :
    briskSwept.traces.map (fun t => t.connection.captures.head?) =
      [some (Span.ofMillis 160, .reaped 1)] := by decide +kernel

theorem Engine.outcome_of_brisk_run :
    ∃ t t', Fleet.brisk.traces = [t] ∧ Fleet.briskSwept.traces = [t'] ∧ t'.phase = t.phase ∧
      t'.connection.pings = t.connection.pings ∧
      t.phase.hops = [.resolved 1 (.v4 ⟨10, 0, 0, 1⟩) (Span.ofMillis 60) .timeExceeded,
        .timedOut 2] ∧
      t'.connection.captures.head? = some (Span.ofMillis 160, .reaped 1) := by
  have hhops := Fleet.hops_brisk
  have hreaped := Fleet.captures_briskSwept
  obtain ⟨t, ht⟩ : ∃ t, Fleet.brisk.traces = [t] := List.length_eq_one_iff.mp
    (Fleet.length_reaches (Fleet.reaches_run
      ⟨0, Engine.brisk.withHistory [], [Trace.Setup.brisk.start 0], 0⟩))
  obtain ⟨-, t', -, ht', -, -, hphase, hpings, -⟩ := Engine.outcome_of_swept_run .brisk [] rfl 0
    .brisk Trace.Setup.solitary_brisk Behaviour.swept_brisk ht
    fun p _ => Trace.Setup.takes_brisk p.ttl
  rw [ht] at hhops
  rw [show Fleet.briskSwept.traces = [t'] from ht'] at hreaped
  exact ⟨t, t', ht, ht', hphase, hpings, List.singleton_inj.mp hhops, List.singleton_inj.mp hreaped⟩

end InbandTrace
