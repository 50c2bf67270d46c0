import InbandTrace.Proofs.Trace.Sweep
import InbandTrace.Trace.Fleet
import Mathlib.Logic.Relation

namespace InbandTrace

structure Trace.Setup where
  id : String
  independent : Bool := false
  cancelled : Bool := false
  behaviour : Behaviour

def Trace.Setup.start (s : Setup) (now : Instant) : Trace where
  id := s.id
  independent := s.independent
  connection := { Connection.start s.behaviour now with cancelled := s.cancelled }

def Engine.withHistory (e : Engine) (history : List Registry.Operation) : Engine :=
  { e with registry := Registry.empty.after history }

structure Trace.Valid (e : Engine) (t : Trace) : Prop where
  standing : t.phase.Standing e.registry
  sweeping : ∀ sweep, t.phase.sweep? = some sweep →
    sweep.session.Sweeping e.config sweep.ttl
  ended : ∀ outcome, t.outcome? = some outcome → ∃ r, Ended e.config outcome r
  ordered : t.connection.agenda.Ordered

namespace Trace

theorem valid_start (s : Setup) (e : Engine) (now : Instant) : (s.start now).Valid e := by
  refine ⟨trivial, ?_, ?_, ?_⟩
  · intro sweep h
    cases h
  · intro outcome h
    cases h
  · exact Agenda.Ordered.scheduleAll List.Pairwise.nil _ _

theorem Valid.of_after {e e' : Engine} {t : Trace} (h : t.Valid e)
    (hc : e'.config = e.config) {ops : List Registry.Operation}
    (hr : e'.registry = e.registry.after ops) : t.Valid e' := by
  refine ⟨?_, by rw [hc]; exact h.sweeping, by rw [hc]; exact h.ended, h.ordered⟩
  have hstand := h.standing
  rw [hr]
  cases hphase : t.phase with
  | writing sweep d =>
      rw [hphase] at hstand
      obtain ⟨hstate, httl, hass⟩ := hstand
      exact ⟨hstate, httl, hass.after fun op _ => op.keeps_ttl _⟩
  | awaiting sweep flight =>
      rw [hphase] at hstand
      obtain ⟨hstate, httl, hass⟩ := hstand
      exact ⟨hstate, httl, hass.after fun op _ => op.keeps_ttl _⟩
  | opening => trivial
  | settling sweep giveUp wake =>
      rw [hphase] at hstand
      exact hstand
  | finished outcome at_ => trivial

theorem world_step (t : Trace) (now : Instant) (e : Engine) :
    t.step now e =
      ({ t with phase := (t.turn now e).1, connection := (t.turn now e).2.connection },
        (t.turn now e).2.engine) := rfl

end Trace

namespace World

theorem Move.agenda {w : World} {phase : Phase} {turn : Turn} (hm : Move w phase turn)
    (hstand : phase.Standing w.engine.registry) :
    turn.2.connection.agenda <:+ w.connection.agenda ∨
      ∃ sweep d, turn.1 = .writing sweep d ∧ phase.sweep?.map Sweep.ttl = some sweep.ttl ∧
        ∃ rest, rest <:+ w.connection.agenda ∧
          turn.2.connection.agenda = Agenda.scheduleAll w.now
            ((w.connection.behaviour.write sweep.ttl.toNat).reactions.map fun r =>
              (r.1, r.2 d.flight.payload)) rest := by
  have hconclude : ∀ {w' : World} {sweep : Sweep} {hop : Hop}, w.Follows w' →
      sweep.session.state = .awaitingResponse hop.ttl →
      (w'.conclude sweep hop).2.connection.agenda <:+ w.connection.agenda := by
    intro w' sweep hop hw hstate
    rw [conclude_of_awaited hstate]
    split
    · exact hw.agenda
    · exact hw.agenda
  cases hm with
  | opened h => exact .inl (follows_of_start h).agenda
  | refused id target h => exact .inl (follows_of_start h).agenda
  | paused hw ht => exact .inl hw.agenda
  | @launched sweep giveUp wake d s w₀ w₁ w₂ w' r hw hl =>
      have hev := hw.trans (hl.evolves trivial)
      refine .inr ⟨_, d, rfl, rfl, w₂.connection.agenda, hev.agenda, ?_⟩
      rw [hl.pinged, ← hev.behaviour, ← hev.now]
      simp only [ping, Connection.ping, hl.lowered]
  | @collided w' sweep giveUp wake s hw hsame => exact .inl (hconclude hw rfl)
  | landed hw => exact .inl hw.agenda
  | @heard w' sweep flight hop hw hh =>
      obtain ⟨hstate, httl, hass⟩ := hstand
      exact .inl (hconclude hw (by rw [hstate, hh.ttl httl hass]))
  | waited hw hempty ht hinbox hagenda => exact .inl hw.agenda
  | aborted hp hw ha => exact .inl hw.agenda
  | rested => exact .inl (List.suffix_refl _)

end World

namespace Trace.Valid

variable {t : Trace} {e : Engine}

theorem agenda_ordered (h : t.Valid e) (now : Instant) :
    (t.step now e).1.connection.agenda.Ordered := by
  rcases (move_turn now h.standing).agenda h.standing with hsub | hping
  · exact h.ordered.suffix hsub
  · obtain ⟨sweep, d, -, -, rest, hrest, heq⟩ := hping
    rw [world_step, heq]
    exact (h.ordered.suffix hrest).scheduleAll _ _

theorem step (h : t.Valid e) (now : Instant) (hs : e.registry.Sound) :
    (t.step now e).1.Valid (t.step now e).2 ∧ (t.step now e).2.config = e.config ∧
      ∃ ops, (t.step now e).2.registry = e.registry.after ops := by
  have hord := h.agenda_ordered now
  by_cases hfin : ∃ outcome at_, t.phase = .finished outcome at_
  · obtain ⟨outcome, at_, hphase⟩ := hfin
    have hturn : t.turn now e = (.finished outcome at_, t.world now e) := by
      simp [turn, hphase]
    have hsame : t.step now e = (t, e) := by
      simp only [Trace.step, hturn, world]
      rw [← hphase]
    rw [hsame]
    exact ⟨h, rfl, [], rfl⟩
  · have hmove := move_turn now h.standing
    have hint := hmove.intact hs h.standing h.sweeping
      fun outcome at_ hphase => hfin ⟨outcome, at_, hphase⟩
    have hcfg : (t.step now e).2.config = e.config := hint.config
    refine ⟨⟨hint.standing, ?_, ?_, hord⟩, hcfg, hint.registry⟩
    · intro sweep hsweep
      rw [hcfg]
      exact hint.sweeping sweep hsweep
    · intro outcome hout
      have hlog := hint.logged
      simp only [outcome?, world_step] at hout
      unfold World.Logged at hlog
      split at hout
      · rename_i o at_ hphase
        simp only [Option.some.injEq] at hout
        rw [hphase] at hlog
        obtain ⟨r, -, hended⟩ := hlog
        rw [hcfg]
        exact ⟨r, hout ▸ hended⟩
      · cases hout

end Trace.Valid

namespace Fleet

theorem exists_trace_of_ready {f : Fleet} {i : Nat} (h : f.isReady i) :
    ∃ t, f.traces[i]? = some t ∧ t.ready f.now f.engine := by
  unfold isReady at h
  split at h
  · exact ⟨_, ‹_›, h⟩
  · cases h

theorem not_ready_of_getElem? {f : Fleet} {i : Nat} {t : Trace} (h : f.isReady i = false)
    (ht : f.traces[i]? = some t) : t.ready f.now f.engine = false := by
  simpa only [isReady, ht] using h

theorem le_of_wake? {f : Fleet} {i : Nat} {t : Trace} {m k : Instant} (h : f.wake? = some m)
    (ht : f.traces[i]? = some t) (hk : t.wake? = some k) : m ≤ k :=
  (List.min?_eq_some_iff.mp h).2 k (List.mem_filterMap.mpr ⟨t, List.mem_of_getElem? ht, hk⟩)

structure Valid (f : Fleet) : Prop where
  sound : f.engine.registry.Sound
  traces : ∀ t ∈ f.traces, t.Valid f.engine

theorem Valid.act {f : Fleet} (h : f.Valid) (i : Nat) :
    (f.act i).Valid ∧ (f.act i).engine.config = f.engine.config := by
  unfold Fleet.act
  split
  · exact ⟨h, rfl⟩
  · rename_i t ht
    have hvalid := h.traces t (List.mem_of_getElem? ht)
    obtain ⟨hown, hcfg, ops, hr⟩ := hvalid.step f.now h.sound
    refine ⟨⟨?_, ?_⟩, hcfg⟩
    · exact hr ▸ h.sound.after ops
    · intro u hu
      rcases List.mem_or_eq_of_mem_set hu with hu | rfl
      · exact (h.traces u hu).of_after hcfg hr
      · exact hown

theorem Valid.step {f g : Fleet} (h : f.Valid) (hs : Step f g) :
    g.Valid ∧ g.engine.config = f.engine.config := by
  cases hs with
  | act hready => exact h.act _
  | wait hidle hw => exact ⟨⟨h.sound, h.traces⟩, rfl⟩

theorem Valid.reaches {f g : Fleet} (h : f.Valid) (hr : Relation.ReflTransGen Step f g) :
    g.Valid ∧ g.engine.config = f.engine.config := by
  induction hr with
  | refl => exact ⟨h, rfl⟩
  | tail _ hs ih =>
      obtain ⟨hg, hc⟩ := ih
      obtain ⟨hnext, hc'⟩ := hg.step hs
      exact ⟨hnext, hc'.trans hc⟩

theorem reaches_step (f : Fleet) : Relation.ReflTransGen Step f f.step := by
  by_cases h : f.step = f
  · rw [h]
  · exact .single (step_of_ne h)

theorem reaches_runFor (n : Nat) (f : Fleet) : Relation.ReflTransGen Step f (runFor n f) := by
  induction n generalizing f with
  | zero => exact .refl
  | succ n ih =>
      simp only [runFor]
      split
      · exact .refl
      · exact (reaches_step f).trans (ih f.step)

theorem reaches_run (f : Fleet) : Relation.ReflTransGen Step f f.run := reaches_runFor _ f

def Alone (P : Instant → Engine → Trace → Prop) (f : Fleet) : Prop :=
  ∃ t, f.traces = [t] ∧ P f.now f.engine t

variable {P : Instant → Engine → Trace → Prop}

theorem step_alone {f g : Fleet} {t : Trace} (ht : f.traces = [t]) (hs : Step f g) :
    (t.ready f.now f.engine ∧ g.now = f.now ∧ g.engine = (t.step f.now f.engine).2 ∧
        g.traces = [(t.step f.now f.engine).1]) ∨
      ∃ m, t.ready f.now f.engine = false ∧ t.wake? = some m ∧ g.now = max f.now m ∧
        g.engine = f.engine ∧ g.traces = [t] := by
  cases hs with
  | @act i hready =>
      cases i with
      | zero =>
          simp only [isReady, ht, List.getElem?_cons_zero] at hready
          refine .inl ⟨hready, ?_, ?_, ?_⟩
          · simp [Fleet.act, ht]
          · simp [Fleet.act, ht]
          · simp [Fleet.act, ht]
      | succ i => simp [isReady, ht] at hready
  | @wait m hidle hw =>
      have hnot := hidle 0
      simp only [isReady, ht, List.getElem?_cons_zero] at hnot
      have hwake : t.wake? = some m := by
        cases htw : t.wake? with
        | none => simp [wake?, ht, htw] at hw
        | some m' => simpa [wake?, ht, htw] using hw
      exact .inr ⟨m, hnot, hwake, rfl, rfl, ht⟩

theorem Alone.step (hact : ∀ now e t, P now e t → t.ready now e →
      P now (t.step now e).2 (t.step now e).1)
    (hwait : ∀ now e t m, P now e t → t.ready now e = false → t.wake? = some m →
      P (max now m) e t)
    {f g : Fleet} (h : f.Alone P) (hs : Step f g) : g.Alone P := by
  obtain ⟨t, ht, hp⟩ := h
  rcases step_alone ht hs with ⟨hready, hnow, he, hg⟩ | ⟨m, hnot, hwake, hnow, he, hg⟩
  · refine ⟨_, hg, ?_⟩
    rw [hnow, he]
    exact hact _ _ _ hp hready
  · refine ⟨t, hg, ?_⟩
    rw [hnow, he]
    exact hwait _ _ _ _ hp hnot hwake

theorem Alone.reaches (hact : ∀ now e t, P now e t → t.ready now e →
      P now (t.step now e).2 (t.step now e).1)
    (hwait : ∀ now e t m, P now e t → t.ready now e = false → t.wake? = some m →
      P (max now m) e t)
    {f g : Fleet} (h : f.Alone P) (hr : Relation.ReflTransGen Step f g) : g.Alone P := by
  induction hr with
  | refl => exact h
  | tail _ hs ih => exact ih.step hact hwait hs

theorem length_step {f g : Fleet} (h : Step f g) : g.traces.length = f.traces.length := by
  cases h with
  | act hready =>
      simp only [Fleet.act]
      split <;> simp
  | wait hidle hw => rfl

theorem length_reaches {f g : Fleet} (h : Relation.ReflTransGen Step f g) :
    g.traces.length = f.traces.length := by
  induction h with
  | refl => rfl
  | tail _ hs ih => exact (length_step hs).trans ih

end Fleet

def Engine.fleet (e : Engine) (now : Instant) (setups : List Trace.Setup) : Fleet :=
  ⟨now, e, setups.map fun s => s.start now, 0⟩

theorem Engine.valid_fleet_of_sound {e : Engine} (hs : e.registry.Sound) (now : Instant)
    (setups : List Trace.Setup) : (e.fleet now setups).Valid := by
  refine ⟨hs, ?_⟩
  intro t ht
  obtain ⟨s, -, rfl⟩ := List.mem_map.mp ht
  exact Trace.valid_start s _ now

theorem Engine.valid_fleet (e : Engine) (history : List Registry.Operation) (now : Instant)
    (setups : List Trace.Setup) : ((e.withHistory history).fleet now setups).Valid :=
  valid_fleet_of_sound (e := e.withHistory history) (Registry.sound_after_empty history) now setups

end InbandTrace
