import InbandTrace.Proofs.Sender.Company

namespace InbandTrace

def Phase.later (d : Span) (n : Nat) : Phase → Phase
  | .opening => .opening
  | .settling sweep giveUp wake => .settling sweep (giveUp + d) (wake + d)
  | .writing sweep departure => .writing sweep (departure.later d n)
  | .awaiting sweep flight => .awaiting sweep (flight.later d n)
  | .finished outcome at_ => .finished outcome (at_ + d)

namespace World

def Abreast (x : Company) (R : Nat → Option Flight → Registry → Registry → Prop)
    (turn turn' : Turn) : Prop :=
  ∃ n, turn.1 = turn'.1.later x.delay n ∧ Twin x (R n turn'.1.flight?) turn.2 turn'.2

variable {x : Company} {R : Nat → Option Flight → Registry → Registry → Prop} {w w' : World}
  {flow : Flow} {n : Nat}

namespace Twin

theorem finish (h : Twin x (R 0 none) w w') (s : Session) (abort : Option Abort) :
    Abreast x R (w.finish s abort) (w'.finish s abort) := by
  simp only [World.finish, h.civil, h.now]
  exact ⟨0, rfl, h.record ..⟩

theorem giveUp (h : Twin x (R 0 none) w w') (s : Session) (abort : Abort) :
    Abreast x R (w.giveUp s abort) (w'.giveUp s abort) := by
  unfold World.giveUp
  split
  · exact h.finish s (some abort)
  · split
    · exact h.finish _ (some abort)
    · rw [h.now]
      exact ⟨0, rfl, h⟩

theorem settling (h : Twin x (R 0 none) w w') (sweep : Sweep) :
    Abreast x R (w.settling sweep) (w'.settling sweep) := by
  simp only [World.settling, h.now, Nat.add_right_comm _ x.delay]
  exact ⟨0, rfl, h⟩

theorem conclude (h : Twin x (R 0 none) w w') (sweep : Sweep) (hop : Hop) :
    Abreast x R (w.conclude sweep hop) (w'.conclude sweep hop) := by
  unfold World.conclude
  split
  · exact h.giveUp ..
  · split
    · exact h.giveUp ..
    · split
      · exact h.settling _
      · exact h.finish _ none

theorem opening (h : Twin x (R 0 none) w w') (hr : Registry.Steady x.delay (R 0 none))
    (id : String) : Abreast x R (w.opening id) (w'.opening id) := by
  obtain ⟨answer, w₁, w₁', hstart, hstart', h₁⟩ := both (h.start hr)
  have hsession : w₁.sessionTo id = w₁'.sessionTo id := by
    funext target
    rw [sessionTo, sessionTo, h₁.civil, h₁.config]
  have hfallback : w₁.fallbackTarget = w₁'.fallbackTarget := by
    rw [fallbackTarget, fallbackTarget, h₁.connection.behaviour]
  simp only [World.opening, hstart, hstart']
  cases answer with
  | error e =>
      simp only [hsession, hfallback]
      exact h₁.giveUp ..
  | ok sender =>
      simp only [hsession]
      split
      · exact h₁.giveUp ..
      · exact h₁.settling _

section

variable {sweep : Sweep}

theorem probe (h : Twin x (Registry.Twin flow x.delay 0 none) w w')
    (hflow : sweep.sender.flow = flow) :
    Abreast x (Registry.Twin flow x.delay) (w.probe sweep) (w'.probe sweep) := by
  subst hflow
  rcases h.launch sweep.ttl with ⟨fault, w₁, w₁', hsent, hsent', h₁⟩ |
    ⟨m, d, w₁, w₁', hsent, hsent', h₁⟩
  · simp only [World.probe, hsent, hsent']
    exact h₁.giveUp ..
  · simp only [World.probe, hsent, hsent']
    exact ⟨m, rfl, h₁⟩

theorem probeWhenQuiet (h : Twin x (Registry.Twin flow x.delay 0 none) w w')
    (hflow : sweep.sender.flow = flow) (giveUp : Instant) :
    Abreast x (Registry.Twin flow x.delay) (w.probeWhenQuiet sweep (giveUp + x.delay))
      (w'.probeWhenQuiet sweep giveUp) := by
  obtain ⟨info, w₁, w₁', hasked, hasked', h₁⟩ := both (h.statistics Registry.Twin.steady)
  simp only [World.probeWhenQuiet, hasked, hasked', h₁.now, Nat.add_le_add_iff_right]
  split
  · exact h₁.probe hflow
  · rw [Nat.add_right_comm]
    exact ⟨0, rfl, h₁⟩

theorem written {d : Departure} (hstate : sweep.session.state = .probing sweep.ttl)
    (h : Twin x (Registry.Twin flow x.delay n (some d.flight)) w w') :
    Abreast x (Registry.Twin flow x.delay) (w.written sweep (d.later x.delay n))
      (w'.written sweep d) := by
  rcases h.land sweep.sender 0 with ⟨fault, w₁, w₁', hsent, hsent', h₁⟩ |
    ⟨w₁, w₁', hsent, hsent', h₁⟩
  · simp only [World.written, hsent, hsent']
    exact h₁.giveUp ..
  · simp only [World.written, hsent, hsent', await_of_probing hstate]
    exact ⟨n, rfl, h₁⟩

theorem look {f : Flight} (h : Twin x (Registry.Twin flow x.delay n (some f)) w w') :
    Abreast x (Registry.Twin flow x.delay) (w.look sweep (f.later x.delay n))
      (w'.look sweep f) := by
  obtain ⟨receipt, w₁, w₁', hread, hread', h₁⟩ := both h.receive
  have hleft := h₁.forget 0
  rw [show n = (f.later x.delay n).mailbox from rfl] at hread
  simp only [World.look, hread, hread']
  cases receipt with
  | hop hop => exact hleft.conclude ..
  | closed => exact hleft.conclude ..
  | empty =>
      obtain ⟨sign, w₂, w₂', hsign, hsign', h₂⟩ := both (h₁.listen Registry.Twin.steady n f)
      have hleft := h₂.forget 0
      simp only [hsign, hsign']
      cases sign with
      | echoed =>
          have hrtt : w₂.now - (f.later x.delay n).sentAt = w₂'.now - f.sentAt := by
            rw [h₂.now]
            exact Nat.add_sub_add_right ..
          simp only [hrtt]
          exact hleft.conclude ..
      | closed => exact hleft.giveUp ..
      | nothing =>
          have hdue : (f.later x.delay n).deadline ≤ w₂.now ↔ f.deadline ≤ w₂'.now := by
            rw [h₂.now]
            exact Nat.add_le_add_iff_right
          simp only [hdue]
          split
          · exact hleft.conclude ..
          · exact ⟨n, rfl, h₂⟩

end

end Twin

end World

def Behaviour.Views (b : Behaviour) (d : Span) (n : Nat) (own : Option Flight)
    (r r' : Registry) : Prop :=
  ∀ flow, Sender.flowOf b = .ok flow → Registry.Twin flow d n own r r'

theorem World.Abreast.of_flow {x : Company} {b : Behaviour} {flow : Flow} {turn turn' : Turn}
    (hflow : Sender.flowOf b = .ok flow)
    (h : World.Abreast x (Registry.Twin flow x.delay) turn turn') :
    World.Abreast x (b.Views x.delay) turn turn' := by
  obtain ⟨m, hsame, hnext⟩ := h
  refine ⟨m, hsame, hnext.mono ?_⟩
  intro flow' hflow'
  cases hflow.symm.trans hflow'
  exact hnext.registry

namespace Trace

structure Twin (x : Company) (b : Behaviour) (now : Instant) (e : Engine) (t : Trace)
    (now' : Instant) (e' : Engine) (u : Trace) : Prop where
  id : t.id = u.id
  independent : t.independent = u.independent
  abreast : World.Abreast x (b.Views x.delay) (t.phase, t.world now e) (u.phase, u.world now' e')

def Fits (b : Behaviour) (u : Trace) : Prop :=
  ∀ sweep, u.phase.sweep? = some sweep → Sender.flowOf b = .ok sweep.sender.flow

namespace Twin

variable {x : Company} {b : Behaviour} {now now' : Instant} {e e' : Engine} {t u : Trace}

theorem isCancelled (h : Twin x b now e t now' e' u) : t.isCancelled e = u.isCancelled e' := by
  obtain ⟨n, -, hw⟩ := h.abreast
  have hstopped : e.stopped = e'.stopped := hw.engine.running.trans hw.engine'.running.symm
  have hcancelled : t.connection.cancelled = u.connection.cancelled := hw.connection.cancelled
  rw [Trace.isCancelled, Trace.isCancelled, h.independent, hstopped, hcancelled]

theorem wake? (h : Twin x b now e t now' e' u) (hopen : u.phase ≠ .opening) :
    t.wake? = u.wake?.map (· + x.delay) := by
  obtain ⟨n, hphase, hw⟩ := h.abreast
  simp only at hphase
  unfold Trace.wake?
  cases hu : u.phase with
  | opening => exact absurd hu hopen
  | awaiting sweep f =>
      rw [hphase, hu]
      exact congrArg some (hw.connection.earliest f.deadline)
  | _ =>
      rw [hphase, hu]
      rfl

theorem ready (h : Twin x b now e t now' e' u) (hfits : u.Fits b) :
    t.ready now e = u.ready now' e' := by
  have hcancel := h.isCancelled
  obtain ⟨n, hphase, hw⟩ := h.abreast
  simp only at hphase
  have hnow : now = now' + x.delay := hw.now
  have hinbox : t.connection.inbox = u.connection.inbox := hw.connection.inbox
  have hdue : t.connection.isDue now = u.connection.isDue now' := by
    rw [hnow]
    exact hw.connection.isDue now'
  unfold Trace.ready
  cases hu : u.phase with
  | opening =>
      rw [hphase, hu]
      rfl
  | settling sweep giveUp wake =>
      rw [hphase, hu]
      simp only [Phase.later, hcancel, hnow, Nat.add_le_add_iff_right]
  | writing sweep d =>
      rw [hphase, hu]
      simp only [Phase.later, Departure.later, hnow, Nat.add_le_add_iff_right]
  | awaiting sweep f =>
      have hbox : e.registry.mailbox? (f.later x.delay n).mailbox =
          e'.registry.mailbox? f.mailbox := by
        have hreg := hw.registry _ (hfits sweep (by rw [hu, Phase.sweep?]))
        simp only [hu, Phase.flight?] at hreg
        exact hreg.mailbox?
      have hlate : (f.later x.delay n).deadline ≤ now ↔ f.deadline ≤ now' := by
        rw [hnow]
        exact Nat.add_le_add_iff_right
      rw [hphase, hu]
      simp only [Phase.later, hcancel, hinbox, hdue, hbox, hlate]
  | finished outcome at_ =>
      rw [hphase, hu]
      rfl

theorem turn (h : Twin x b now e t now' e' u) (hstand : u.phase.Standing e'.registry)
    (hfits : u.Fits b) : World.Abreast x (b.Views x.delay) (t.turn now e) (u.turn now' e') := by
  have hcancel := h.isCancelled
  obtain ⟨n, hphase, hw⟩ := h.abreast
  simp only at hphase
  unfold Trace.turn
  cases hu : u.phase with
  | opening =>
      rw [hphase, hu, h.id]
      simp only [hu, Phase.flight?] at hw
      refine World.Twin.opening (hw.mono hw.registry) ?_ u.id
      intro r r' data source time hr flow hflow
      exact (hr flow hflow).dispatch data source time
  | settling sweep giveUp wake =>
      have hflow := hfits sweep (by rw [hu, Phase.sweep?])
      simp only [hu, Phase.flight?] at hw
      have hnone : Registry.Twin sweep.sender.flow x.delay 0 none _ _ := hw.registry _ hflow
      have hidle := hw.mono hnone
      refine .of_flow hflow ?_
      rw [hphase, hu]
      simp only [Phase.later, hcancel]
      split
      · exact hidle.giveUp ..
      · exact hidle.probeWhenQuiet rfl giveUp
  | writing sweep d =>
      have hflow := hfits sweep (by rw [hu, Phase.sweep?])
      rw [hu] at hstand
      simp only [hu, Phase.flight?] at hw
      refine .of_flow hflow ?_
      rw [hphase, hu]
      exact (hw.mono (hw.registry _ hflow)).written hstand.1
  | awaiting sweep f =>
      have hflow := hfits sweep (by rw [hu, Phase.sweep?])
      simp only [hu, Phase.flight?] at hw
      have hown : Registry.Twin sweep.sender.flow x.delay n (some f) _ _ := hw.registry _ hflow
      have hwaits := hw.mono hown
      refine .of_flow hflow ?_
      rw [hphase, hu]
      simp only [Phase.later, hcancel]
      split
      · exact (hwaits.forget 0).giveUp ..
      · exact hwaits.look
  | finished outcome at_ =>
      rw [hphase, hu]
      simp only [hu, Phase.flight?] at hw
      exact ⟨n, rfl, hw⟩

theorem step (h : Twin x b now e t now' e' u) (hstand : u.phase.Standing e'.registry)
    (hfits : u.Fits b) :
    Twin x b now (t.step now e).2 (t.step now e).1 now' (u.step now' e').2 (u.step now' e').1 := by
  obtain ⟨_, -, hbefore⟩ := h.abreast
  obtain ⟨n, hphase, hw⟩ := h.turn hstand hfits
  exact ⟨h.id, h.independent, n, hphase, hbefore.now, hw.engine, hw.engine', hw.connection,
    hw.registry⟩

end Twin

end Trace

end InbandTrace
