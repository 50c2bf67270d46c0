import InbandTrace.Proofs.Registry.Guest
import InbandTrace.Proofs.Trace.Course
import InbandTrace.Proofs.Trace.Termination

namespace InbandTrace

/-- What a trace does to the registry beside what happens there anyway, by the probe that it has
under way. -/
inductive Registry.Custody (P : Token → Prop) :
    Option Flight → List Operation → Option Flight → Registry → Registry → Prop where
  | lapse {probe : Option Flight} {r : Registry} (ops : List Operation) :
      Custody P probe ops probe r (r.after ops)
  | enter {f : Flight} {r r' : Registry} (hp : P f.token)
      (h : r.register f.token f.ttl f.sentAt f.deadline = some (f.mailbox, r')) :
      Custody P none [] (some f) r r'
  | read {f : Flight} {r : Registry} : Custody P (some f) [] (some f) r (r.receive f.mailbox).2
  | leave {f : Flight} {r : Registry} :
      Custody P (some f) [] none r ((r.release f.token).2.drop f.mailbox)
  | trans {before between after : Option Flight} {xs ys : List Operation} {r r' r'' : Registry}
      (h : Custody P before xs between r r') (h' : Custody P between ys after r' r'') :
      Custody P before (xs ++ ys) after r r''

theorem Registry.Custody.hosting {P : Token → Prop} {before after : Option Flight}
    {ops : List Registry.Operation} {r r' alone : Registry}
    (hc : Registry.Custody P before ops after r r') (h : alone.Hosting before r)
    (hops : ∀ op ∈ ops, op.Passing alone.registrations) :
    (alone.after ops).Hosting after r' ∧
      (alone.after ops).registrations = alone.registrations := by
  induction hc generalizing alone with
  | lapse ops => exact h.after hops
  | enter hp hr => exact ⟨h.enter hr, rfl⟩
  | read => exact ⟨h.read, rfl⟩
  | leave => exact ⟨h.leave, rfl⟩
  | trans _ _ ih ih' =>
      obtain ⟨hmid, hsame⟩ := ih h fun op hop => hops op (List.mem_append_left _ hop)
      obtain ⟨hend, hsame'⟩ := ih' hmid fun op hop => by
        rw [hsame]
        exact hops op (List.mem_append_right _ hop)
      rw [Registry.after_append]
      exact ⟨hend, hsame'.trans hsame⟩

namespace World

open Registry

variable {P : Token → Prop}

theorem Lapse.custody {es : Agenda} {w w' : World} (hw : Lapse es w w') (probe : Option Flight) :
    Custody P probe es.operations probe w.engine.registry w'.engine.registry := by
  rw [hw.registry]
  exact .lapse _

theorem custody_forget {es : Agenda} {w w' : World} (hw : Lapse es w w') (f : Flight) :
    Custody P (some f) es.operations none w.engine.registry
      (w'.forget f.token f.mailbox).engine.registry := by
  have h := (hw.custody (P := P) (some f)).trans .leave
  rwa [List.append_nil] at h

theorem custody_reserve {es es' : Agenda} {w w' w'' : World} {sender s : Sender} {ttl : UInt8}
    {m n : Nat} {r : Registry} {f : Flight} {payload : List UInt8}
    (hp : ∀ token, token.flow = sender.flow → P token) (hw : Lapse es w w')
    (hr : sender.reserve ttl w.now (Sender.attempts - 1) w'.engine.registry = (s, .ok (m, r)))
    (hw' : Lapse es' ((w'.withRegistry r).setTtl ttl.toNat).2 w'')
    (hf : f = ⟨s.token, ttl, w.now, w.now + s.hopTimeout, payload, n, m⟩) :
    Custody P none (es ++ es').operations (some f) w.engine.registry w''.engine.registry := by
  obtain ⟨hs, hreg⟩ := Sender.reserve_ok hr
  have htime : s.hopTimeout = sender.hopTimeout := by rw [hs]
  have hflow : s.token.flow = sender.flow := by rw [hs, Sender.token]
  have henter : Custody P none [] (some f) w'.engine.registry r := by
    refine .enter ?_ ?_
    · rw [hf]
      exact hp _ hflow
    · rw [hf, htime]
      exact hreg
  rw [Agenda.operations_append]
  exact (hw.custody none).trans (henter.trans (hw'.custody (some f)))

theorem Course.custody {w : World} {phase : Phase} {es : Agenda} {turn : Turn}
    (hc : Course w phase es turn)
    (hp : ∀ sweep, phase.sweep? = some sweep → ∀ token, token.flow = sweep.sender.flow → P token) :
    Custody P phase.flight? es.operations turn.1.flight? w.engine.registry
      turn.2.engine.registry := by
  cases hc with
  | opened hw hs hstart => exact hw.custody none
  | refused id target hw ha => exact hw.custody none
  | cancelled => exact .lapse []
  | paused hw ht => exact hw.custody none
  | collided hw hr =>
      rw [flight?_proceed, registry_proceed]
      exact hw.custody none
  | @unsent es es' w' w'' sweep giveUp wake s m r hw hr hw' =>
      let f : Flight := ⟨s.token, sweep.ttl, w.now, w.now + s.hopTimeout, [], 0, m⟩
      have h := (custody_reserve (f := f) (hp sweep rfl) hw hr hw' rfl).trans .leave
      rwa [List.append_nil] at h
  | @launched es es' w' w'' sweep giveUp wake s m r d hw hr hset hw' hd =>
      have h := custody_reserve (hp sweep rfl) hw hr hw' hd
      exact h
  | landed hw hset => exact hw.custody _
  | crashed hw => exact custody_forget hw _
  | calledOff => exact .leave
  | replied hbox httl =>
      rw [flight?_proceed, registry_proceed]
      exact Custody.read.trans .leave
  | evicted httl =>
      rw [flight?_proceed, registry_proceed]
      exact Custody.read.trans .leave
  | echoed hw hpong httl =>
      rw [flight?_proceed, registry_proceed]
      exact custody_forget hw _
  | late hw ht httl =>
      rw [flight?_proceed, registry_proceed]
      exact custody_forget hw _
  | hungUp hw => exact custody_forget hw _
  | waited hw ht => exact hw.custody _
  | rested => exact .lapse []

end World

/-- The registry as it would be now without the trace, if the same had happened otherwise. -/
def Trace.undisturbed (initial : Registry) (t : Trace) : Registry :=
  initial.after t.connection.happened.operations

structure Trace.Hosted (initial : Registry) (e : Engine) (t : Trace) : Prop where
  hosting : (t.undisturbed initial).Hosting t.phase.flight? e.registry
  opened : (t.undisturbed initial).registrations = initial.registrations

namespace Trace.Hosted

variable {initial : Registry} {e : Engine} {t : Trace} {now : Instant}

theorem start (s : Setup) (now : Instant) (he : e.registry.Sound) :
    (s.start now).Hosted e.registry e := by
  have hnothing : (s.start now).connection.happened = [] :=
    (Connection.kept_start s.behaviour now).2
  have hsame : (s.start now).undisturbed e.registry = e.registry := by
    rw [undisturbed, hnothing]
    rfl
  refine ⟨?_, ?_⟩
  · rw [hsame]
    exact Registry.hosting_self he
  · rw [hsame]

theorem step (h : t.Hosted initial e) {es : Agenda}
    (hc : World.Course (t.world now e) t.phase es (t.turn now e)) (hk : t.connection.Kept now)
    (hpassing : ∀ op ∈ es.operations, op.Passing initial.registrations) :
    (t.step now e).1.Hosted initial (t.step now e).2 := by
  have hhappened : (t.step now e).1.connection.happened = t.connection.happened ++ es :=
    (hc.kept hk).2
  have hsame : (t.step now e).1.undisturbed initial =
      (t.undisturbed initial).after es.operations := by
    rw [undisturbed, hhappened, Agenda.operations_append, Registry.after_append]
    rfl
  have hcustody := hc.custody (P := fun _ => True) fun _ _ _ _ => trivial
  obtain ⟨hhosting, hopened⟩ := hcustody.hosting h.hosting fun op hop => by
    rw [h.opened]
    exact hpassing op hop
  refine ⟨?_, ?_⟩
  · rw [hsame]
    exact hhosting
  · rw [hsame]
    exact hopened.trans h.opened

end Trace.Hosted

theorem Fleet.hosted_of_reaches {e : Engine} {now : Instant} {s : Trace.Setup}
    (hs : e.registry.Sound) (ha : s.behaviour.Allows (Registry.Operation.Passing
      e.registry.registrations)) {f : Fleet}
    (hr : Relation.ReflTransGen Step (e.fleet now [s]) f) :
    ∃ t, f.traces = [t] ∧ t.connection.Kept f.now ∧ t.Hosted e.registry f.engine ∧
      ∀ op ∈ t.connection.happened.operations, op.Passing e.registry.registrations := by
  have hstart : (e.fleet now [s]).Alone fun now e' t => t.OnCourse e.config s.behaviour now e' ∧
      t.Hosted e.registry e' := ⟨s.start now, rfl, .start s now hs, .start s now hs⟩
  obtain ⟨t, ht, hcourse, hhosted⟩ := hstart.onCourse
    (fun now e' t es hcourse hhosted hc hnext =>
      hhosted.step hc hcourse.kept (hnext.allowed hcourse.kept hc ha))
    (fun _ _ _ _ _ h => h) hr
  exact ⟨t, ht, hcourse.kept, hhosted, hcourse.kept.allowed (hcourse.behaviour ▸ ha)⟩

theorem Engine.registry_of_run (e : Engine) (history : List Registry.Operation) (now : Instant)
    (s : Trace.Setup) (h : s.behaviour.Allows (Registry.Operation.Passing
      (Registry.empty.after history).registrations)) :
    let initial := Registry.empty.after history
    (∀ f, Relation.ReflTransGen Fleet.Step ((e.withHistory history).fleet now [s]) f →
      ∃ t, f.traces = [t] ∧ t.connection.Kept f.now ∧
        f.engine.registry.entries.filter (fun x => decide (x.mailbox < initial.registrations)) =
          (t.undisturbed initial).entries ∧
        ∀ n < initial.registrations,
          f.engine.registry.mailbox? n = (t.undisturbed initial).mailbox? n) ∧
    let final := (e.withHistory history).run now [s.start now]
    ∃ t outcome, final.traces = [t] ∧ t.outcome? = some outcome ∧ t.connection.Kept final.now ∧
      final.engine.registry.entries = (t.undisturbed initial).entries ∧
      (∀ n, final.engine.registry.mailbox? n = (t.undisturbed initial).mailbox? n) ∧
      final.engine.registry.entries.Sublist initial.entries ∧
      ∀ x, x ∈ final.engine.registry.entries ↔ x ∈ initial.entries ∧
        ∀ before op after, t.connection.happened.operations = before ++ op :: after →
          op.takes (initial.after before) x = false := by
  intro initial
  have hsound : initial.Sound := Registry.sound_after_empty history
  refine ⟨?_, ?_⟩
  · intro f hf
    obtain ⟨t, ht, hkept, hhosted, -⟩ := Fleet.hosted_of_reaches hsound h hf
    refine ⟨t, ht, hkept, hhosted.opened ▸ hhosted.hosting.old, ?_⟩
    intro n hn
    refine hhosted.hosting.boxes n fun f hf => ?_
    exact Nat.ne_of_lt (Nat.lt_of_lt_of_le (hhosted.opened ▸ hn) (hhosted.hosting.late f hf))
  · intro final
    obtain ⟨t, ht, hkept, hhosted, hpassing⟩ := Fleet.hosted_of_reaches hsound h
      (Fleet.reaches_run ((e.withHistory history).fleet now [s]))
    obtain ⟨outcome, at_, hphase⟩ := e.finished_of_run history ht
    have hout : t.outcome? = some outcome := by
      rw [Trace.outcome?, hphase]
    have hnone : t.phase.flight? = none := by
      rw [hphase]
      rfl
    obtain ⟨hhosting, hopened⟩ := hhosted
    rw [hnone] at hhosting
    have hentries : final.engine.registry.entries = (t.undisturbed initial).entries :=
      hhosting.entries_of_none
    refine ⟨t, outcome, ht, hout, hkept, hentries, fun n => hhosting.boxes n (by simp), ?_, ?_⟩
    · rw [hentries]
      exact Registry.sublist_after_passing hpassing
    · intro x
      rw [hentries]
      exact Registry.mem_after_passing hpassing

def Engine.crowded : Engine where
  config := { Config.default with maxHops := 2 }
  wallClock := fun _ => ⟨0, 0⟩

def Trace.Setup.crowded : Setup where
  id := "a"
  behaviour :=
    { localAddress := .ok (.v4 ⟨192, 0, 2, 10⟩ 443)
      peerAddress := fun _ => .ok (.v4 ⟨198, 51, 100, 20⟩ 51234)
      script := [(3, .reap 40)] }

def Registry.heldToken : Token :=
  ⟨.between (.v4 ⟨192, 0, 2, 10⟩ 443) (.v4 ⟨198, 51, 100, 20⟩ 51234), 51⟩

def Registry.crowd : List Operation :=
  [.register heldToken 9 0 4000000000, .register sampleToken 3 0 20]

theorem Engine.registry_of_crowded_run :
    let final := (Engine.crowded.withHistory Registry.crowd).run 5 [Trace.Setup.crowded.start 5]
    ∃ t, final.traces = [t] ∧ t.connection.pings.map Ping.ttl = [2, 1] ∧
      final.engine.registry.entries = [⟨Registry.heldToken, 9, 0, 4000000000, 0⟩] ∧
      (t.undisturbed (Registry.empty.after Registry.crowd)).entries =
        [⟨Registry.heldToken, 9, 0, 4000000000, 0⟩] := by
  have hpassing : Trace.Setup.crowded.behaviour.Allows (Registry.Operation.Passing 2) := by
    refine ⟨?_, ?_⟩
    · rintro x hx due op hop
      cases List.mem_singleton.mp hx
      cases hop
      trivial
    · rintro ttl r hr
      cases hr
  have hleft : ((Engine.crowded.withHistory Registry.crowd).run 5
      [Trace.Setup.crowded.start 5]).engine.registry.entries =
        [⟨Registry.heldToken, 9, 0, 4000000000, 0⟩] := by decide +kernel
  have hpings : ((Engine.crowded.withHistory Registry.crowd).run 5
      [Trace.Setup.crowded.start 5]).traces.map (fun t => t.connection.pings.map Ping.ttl) =
        [[2, 1]] := by decide +kernel
  obtain ⟨-, t, outcome, ht, -, -, hentries, -⟩ :=
    Engine.registry_of_run .crowded Registry.crowd 5 .crowded hpassing
  rw [ht] at hpings
  exact ⟨t, ht, List.singleton_inj.mp hpings, hleft, hentries.symm.trans hleft⟩

end InbandTrace
