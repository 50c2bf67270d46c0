import InbandTrace.Connection.Path
import InbandTrace.Proofs.Packet.Datagram
import InbandTrace.Proofs.Trace.Beside
import InbandTrace.Proofs.Trace.Shadow

namespace InbandTrace

namespace Registry

theorem Custody.beside {flow : Flow} {m : Nat → Prop} {S : Registry → Prop}
    (hforeign : ∀ r (op : Operation), S r → op.Foreign flow 0 → S (r.apply op).2)
    (hreceive : ∀ r k, S r → ¬ m k → S (r.receive k).2)
    (hdrop : ∀ r k, S r → ¬ m k → S (r.drop k))
    (hfresh : ∀ r : Registry, S r → ¬ m r.registrations)
    {before after : Option Flight} {ops : List Operation} {r r' : Registry}
    (hc : Custody (fun token => token.flow ≠ flow) before ops after r r')
    (hops : ∀ op ∈ ops, op.Foreign flow 0)
    (hbefore : ∀ f ∈ before, f.token.flow ≠ flow ∧ ¬ m f.mailbox) (h : S r) :
    S r' ∧ ∀ f ∈ after, f.token.flow ≠ flow ∧ ¬ m f.mailbox := by
  induction hc with
  | @lapse probe r ops =>
      refine ⟨?_, hbefore⟩
      induction ops generalizing r with
      | nil => exact h
      | cons op rest ih =>
          exact ih (fun op' hop' => hops op' (List.mem_cons_of_mem _ hop'))
            (hforeign r op h (hops op List.mem_cons_self))
  | @enter f r r' hp hr =>
      have hmailbox := (register_eq_some_iff.mp hr).2.1
      have happly : (r.apply (.register f.token f.ttl f.sentAt f.deadline)).2 = r' := by
        simp [apply, hr]
      refine ⟨happly ▸ hforeign r _ h hp, ?_⟩
      rintro f' hf'
      cases hf'
      exact ⟨hp, hmailbox ▸ hfresh r h⟩
  | @read f r => exact ⟨hreceive r _ h (hbefore f rfl).2, hbefore⟩
  | @leave f r =>
      obtain ⟨hflow, hmailbox⟩ := hbefore f rfl
      refine ⟨hdrop _ _ (hforeign r (.release f.token) h hflow) hmailbox, ?_⟩
      intro f' hf'
      cases hf'
  | trans _ _ ih ih' =>
      obtain ⟨hmid, hbetween⟩ := ih (fun op hop => hops op (List.mem_append_left _ hop)) hbefore h
      exact ih' (fun op hop => hops op (List.mem_append_right _ hop)) hbetween hmid

theorem Twin.beside {flow : Flow} {d : Span} {n : Nat} {own : Option Flight} {r r' k : Registry}
    (h : Twin flow d n own r r') {before after : Option Flight} {ops : List Operation}
    (hc : Custody (fun token => token.flow ≠ flow) before ops after r k)
    (hops : ∀ op ∈ ops, op.Foreign flow 0)
    (hbefore : ∀ f ∈ before, f.token.flow ≠ flow ∧ ¬ (own.isSome ∧ f.mailbox = n)) :
    Twin flow d n own k r' ∧ ∀ f ∈ after, ¬ (own.isSome ∧ f.mailbox = n) := by
  cases own with
  | none =>
      obtain ⟨hclear, hclear'⟩ := h
      obtain ⟨hk, -⟩ := hc.beside (m := fun _ => False) (S := fun r => r.Clear flow 0)
        (fun _ _ h hop => h.foreign hop) (fun _ k h _ => h.receive k)
        (fun _ k h _ => h.drop k) (fun _ _ => id) hops
        (fun f hf => ⟨(hbefore f hf).1, id⟩) hclear
      exact ⟨⟨hk, hclear'⟩, by simp⟩
  | some f =>
      obtain ⟨hflow, s, hs, hs'⟩ := h
      obtain ⟨hk, hafter⟩ := hc.beside (m := fun k => k = n)
        (S := fun r => r.Shows flow (f.later d n) s) (fun _ _ h hop => h.foreign hop)
        (fun _ _ h hm => h.receive_ne (Ne.symm hm)) (fun _ _ h hm => h.drop_ne (Ne.symm hm))
        (fun _ h => Nat.ne_of_gt h.opened) hops
        (fun f hf => ⟨(hbefore f hf).1, fun hm => (hbefore f hf).2 ⟨rfl, hm⟩⟩) hs
      exact ⟨⟨hflow, s, hk, hs'⟩, fun f hf hm => (hafter f hf).2 hm.2⟩

end Registry

theorem Behaviour.Views.beside {b : Behaviour} {d : Span} {n : Nat} {own : Option Flight}
    {r r' k : Registry} (h : b.Views d n own r r')
    (hnone : ∀ error, Sender.flowOf b = .error error → own = none) {before after : Option Flight}
    (hforeign : ∀ flow, Sender.flowOf b = .ok flow → ∃ ops, (∀ op ∈ ops, op.Foreign flow 0) ∧
      Registry.Custody (fun token => token.flow ≠ flow) before ops after r k ∧
      ∀ f ∈ before, f.token.flow ≠ flow)
    (hfree : ∀ f ∈ before, ¬ (own.isSome ∧ f.mailbox = n)) :
    b.Views d n own k r' ∧ ∀ f ∈ after, ¬ (own.isSome ∧ f.mailbox = n) := by
  cases hflow : Sender.flowOf b with
  | error error =>
      refine ⟨fun flow hok => ?_, by simp [hnone error hflow]⟩
      cases hflow.symm.trans hok
  | ok flow =>
      obtain ⟨ops, hops, hcustody, htokens⟩ := hforeign flow hflow
      obtain ⟨htwin, hafter⟩ := (h flow hflow).beside hcustody hops fun f hf =>
        ⟨htokens f hf, hfree f hf⟩
      refine ⟨fun flow' hflow' => ?_, hafter⟩
      cases hflow.symm.trans hflow'
      exact htwin

theorem Event.Apart.foreign {others : Flow → Prop} {x : Event} (h : x.Apart others) {flow : Flow}
    (hflow : others flow) : x.Allowed fun op => op.Foreign flow 0 := by
  intro due op hop
  cases x with
  | packet data source =>
      cases hop
      rintro reply hparse rfl
      exact h reply hparse hflow
  | reap ahead => exact h.elim
  | registry op' => exact h.elim
  | _ => cases hop

theorem Event.Apart.passing {others : Flow → Prop} {x : Event} (h : x.Apart others) :
    x.Allowed (Registry.Operation.Passing 0) := by
  intro due op hop
  cases x with
  | packet data source =>
      cases hop
      trivial
  | reap ahead => exact h.elim
  | registry op' => exact h.elim
  | _ => cases hop

theorem Behaviour.Brings.allows {b : Behaviour} {Q : Event → Prop}
    {P : Registry.Operation → Prop} (h : b.Brings Q) (hq : ∀ e, Q e → e.Allowed P) : b.Allows P :=
  ⟨fun x hx => hq _ (h.1 x hx), fun ttl r hr payload => hq _ (h.2 ttl r hr payload)⟩

namespace Phase

theorem sweep?_later (d : Span) (n : Nat) (phase : Phase) :
    (phase.later d n).sweep? = phase.sweep? := by
  cases phase <;> rfl

theorem flight?_later (d : Span) (n : Nat) (phase : Phase) :
    (phase.later d n).flight? = phase.flight?.map (Flight.later d n) := by
  cases phase <;> rfl

theorem exists_sweep_of_flight {phase : Phase} {f : Flight} (h : phase.flight? = some f) :
    ∃ sweep, phase.sweep? = some sweep := by
  cases phase with
  | writing sweep d => exact ⟨sweep, rfl⟩
  | awaiting sweep f => exact ⟨sweep, rfl⟩
  | _ => cases h

end Phase

theorem Trace.Shadow.custody {x : Company} {b : Behaviour} {c : Config} {now : Instant}
    {e : Engine} {t u : Trace} {a : Fleet} (h : t.Shadow x b now e a u) (hfits : u.Fits b)
    (hcourse : t.OnCourse c t.connection.behaviour now e) (hready : t.ready now e) {flow : Flow}
    (hown : Sender.flowOf b ≠ .ok flow) (hother : x.others flow) :
    ∃ ops, (∀ op ∈ ops, op.Foreign flow 0) ∧
      Registry.Custody (fun token => token.flow ≠ flow) t.phase.flight? ops
        (t.step now e).1.phase.flight? e.registry (t.step now e).2.registry ∧
      ∀ f ∈ t.phase.flight?, f.token.flow ≠ flow := by
  obtain ⟨n, hphase, hw⟩ := h.twin.abreast
  simp only at hphase
  obtain ⟨es, hc⟩ := course_turn now hcourse.valid.standing
  have hbrings : t.connection.behaviour.Brings (Event.Apart x.others) := by
    rw [show t.connection.behaviour = u.connection.behaviour from hw.connection.behaviour]
    exact hw.connection.brings
  have hes := (hcourse.step hready).happens hcourse.kept hc hbrings
  have hsweep : ∀ sweep, t.phase.sweep? = some sweep → sweep.sender.flow ≠ flow := by
    rintro sweep hsweep rfl
    rw [hphase, Phase.sweep?_later] at hsweep
    exact hown (hfits sweep hsweep)
  refine ⟨es.operations, ?_, hc.custody fun sweep hs token htoken => ?_, ?_⟩
  · exact Agenda.allowed_operations fun y hy => (hes y hy).2.foreign hother
  · rw [htoken]
    exact hsweep sweep hs
  · intro f hf
    rw [hphase, Phase.flight?_later] at hf
    obtain ⟨f', hf', rfl⟩ := Option.map_eq_some_iff.mp hf
    obtain ⟨sweep, hs⟩ := Phase.exists_sweep_of_flight hf'
    have hreg := hw.registry _ (hfits sweep hs)
    simp only [hf'] at hreg
    have hflow : (f'.later x.delay n).token.flow = sweep.sender.flow := hreg.1
    rw [hflow]
    exact hsweep sweep (by rw [hphase, Phase.sweep?_later, hs])

namespace Trace.Setup

def Others (setups : List Setup) (i : Nat) (flow : Flow) : Prop :=
  ∃ (j : Nat) (s : Setup), j ≠ i ∧ setups[j]? = some s ∧ Sender.flowOf s.behaviour = .ok flow

/-- No two connections have the same flow, and what happens on one concerns no other. -/
structure Apart (setups : List Setup) : Prop where
  distinct : ∀ (i : Nat) (s : Setup) (flow : Flow), setups[i]? = some s →
    Sender.flowOf s.behaviour = .ok flow → ¬ Others setups i flow
  events : ∀ (i : Nat) (s : Setup), setups[i]? = some s →
    s.behaviour.Brings (Event.Apart (Others setups i))

def alone (s : Setup) (e : Engine) (start : Instant) : Fleet := (e.anew start).fleet 0 [s]

theorem course_alone {s : Setup} {e : Engine} {start : Instant} {a : Fleet} {u : Trace}
    (hr : Relation.ReflTransGen Fleet.Step (s.alone e start) a) (hu : a.traces = [u]) :
    u.OnCourse e.config s.behaviour a.now a.engine := by
  have hstart : (s.alone e start).Alone fun now e' t =>
      t.OnCourse e.config s.behaviour now e' ∧ True :=
    ⟨s.start 0, rfl, .start (e := e.anew start) s 0 Registry.sound_empty, trivial⟩
  obtain ⟨u', hu', hcourse, -⟩ := hstart.onCourse (fun _ _ _ _ _ _ _ _ => trivial)
    (fun _ _ _ _ _ _ => trivial) hr
  rw [hu] at hu'
  cases hu'
  exact hcourse

theorem fits_alone {s : Setup} {e : Engine} {start : Instant} {a : Fleet} {u : Trace}
    (hr : Relation.ReflTransGen Fleet.Step (s.alone e start) a) (hu : a.traces = [u]) :
    u.Fits s.behaviour := fun sweep hsweep => ((course_alone hr hu).equipped sweep hsweep).flow

end Trace.Setup

namespace Fleet

/-- Each trace of a fleet is where it would be alone, and no two wait at one mailbox. -/
structure Shadowed (e : Engine) (start : Instant) (setups : List Trace.Setup) (f : Fleet) :
    Prop where
  separate : ∀ (i j : Nat) (t v : Trace), i ≠ j → f.traces[i]? = some t → f.traces[j]? = some v →
    ∀ y ∈ t.phase.flight?, ∀ z ∈ v.phase.flight?, y.mailbox ≠ z.mailbox
  shadow : ∀ (i : Nat) (t : Trace), f.traces[i]? = some t → ∃ s a u, setups[i]? = some s ∧
    Relation.ReflTransGen Step (s.alone e start) a ∧
    t.Shadow ⟨e, start, Trace.Setup.Others setups i⟩ s.behaviour f.now f.engine a u

namespace Shadowed

variable {e : Engine} {start : Instant} {setups : List Trace.Setup} {f : Fleet}

theorem beside (h : f.Shadowed e start setups) (hapart : Trace.Setup.Apart setups)
    (hcourse : f.Each fun _ now e' t => t.OnCourse e.config t.connection.behaviour now e')
    {i j : Nat} (hne : j ≠ i) {t v : Trace} (ht : f.traces[i]? = some t)
    (hv : f.traces[j]? = some v) (hready : v.ready f.now f.engine) :
    (∃ s a u, setups[i]? = some s ∧ Relation.ReflTransGen Step (s.alone e start) a ∧
      t.Shadow ⟨e, start, Trace.Setup.Others setups i⟩ s.behaviour f.now
        (v.step f.now f.engine).2 a u) ∧
      ∀ y ∈ t.phase.flight?, ∀ z ∈ (v.step f.now f.engine).1.phase.flight?,
        y.mailbox ≠ z.mailbox := by
  obtain ⟨s, a, u, hs, ha, hshadow⟩ := h.shadow i t ht
  obtain ⟨s', a', u', hs', ha', hshadow'⟩ := h.shadow j v hv
  have hfits := Trace.Setup.fits_alone ha hshadow.traces
  have hfits' := Trace.Setup.fits_alone ha' hshadow'.traces
  have hcourse' := Trace.Setup.course_alone ha' hshadow'.traces
  obtain ⟨_, _, -, hnext⟩ := hshadow'.turn hcourse'.valid.standing hfits' hready
  obtain ⟨_, -, hnext⟩ := hnext.twin.abreast
  have hlike : (v.step f.now f.engine).2.Like e := hnext.engine
  have hnone : ∀ error, Sender.flowOf s.behaviour = .error error → u.phase.flight? = none := by
    intro error hflow
    refine Option.eq_none_iff_forall_ne_some.mpr fun y hy => ?_
    obtain ⟨sweep, hsweep⟩ := Phase.exists_sweep_of_flight hy
    cases hflow.symm.trans (hfits sweep hsweep)
  have hforeign : ∀ flow, Sender.flowOf s.behaviour = .ok flow → ∃ ops,
      (∀ op ∈ ops, op.Foreign flow 0) ∧
      Registry.Custody (fun token => token.flow ≠ flow) v.phase.flight? ops
        (v.step f.now f.engine).1.phase.flight? f.engine.registry
        (v.step f.now f.engine).2.registry ∧
      ∀ z ∈ v.phase.flight?, z.token.flow ≠ flow := by
    intro flow hflow
    have hother : Trace.Setup.Others setups j flow := ⟨i, s, hne.symm, hs, hflow⟩
    exact hshadow'.custody hfits' (hcourse j v hv) hready
      (fun hsame => hapart.distinct j s' flow hs' hsame hother) hother
  have hfree : ∀ n, t.phase = u.phase.later start n →
      ∀ z ∈ v.phase.flight?, ¬ (u.phase.flight?.isSome ∧ z.mailbox = n) := by
    rintro n hphase z hz ⟨hsome, rfl⟩
    obtain ⟨y, hy⟩ := Option.isSome_iff_exists.mp hsome
    refine h.separate i j t v hne.symm ht hv (y.later start z.mailbox) ?_ z hz rfl
    rw [hphase, Phase.flight?_later, hy]
    rfl
  obtain ⟨n, hphase, hw⟩ := hshadow.twin.abreast
  obtain ⟨-, hafter⟩ := hw.registry.beside hnone hforeign (hfree n hphase)
  refine ⟨⟨s, a, u, hs, ha, hshadow.other hlike fun n hold hphase =>
    (hold.beside hnone hforeign (hfree n hphase)).1⟩, ?_⟩
  intro y hy z hz hsame
  simp only at hphase
  rw [hphase, Phase.flight?_later] at hy
  obtain ⟨y', hy', rfl⟩ := Option.map_eq_some_iff.mp hy
  exact hafter z hz ⟨by rw [hy']; rfl, hsame.symm⟩

theorem act (h : f.Shadowed e start setups) (hapart : Trace.Setup.Apart setups)
    (hcourse : f.Each fun _ now e' t => t.OnCourse e.config t.connection.behaviour now e') {k : Nat}
    {w : Trace} (hk : f.traces[k]? = some w) (hready : w.ready f.now f.engine) :
    (f.act k).Shadowed e start setups := by
  obtain ⟨hnow, hengine, htraces⟩ := act_eq hk
  have hget : ∀ i t, (f.act k).traces[i]? = some t →
      i = k ∧ t = (w.step f.now f.engine).1 ∨ i ≠ k ∧ f.traces[i]? = some t := by
    intro i t ht
    rw [htraces] at ht
    by_cases hik : i = k
    · subst hik
      rw [List.getElem?_set_self (List.getElem?_eq_some_iff.mp hk).1] at ht
      exact .inl ⟨rfl, (Option.some.inj ht).symm⟩
    · rw [List.getElem?_set_ne (Ne.symm hik)] at ht
      exact .inr ⟨hik, ht⟩
  refine ⟨?_, ?_⟩
  · intro i j t v hne ht hv y hy z hz
    rcases hget i t ht with ⟨rfl, rfl⟩ | ⟨hik, ht₀⟩
    · rcases hget j v hv with ⟨rfl, -⟩ | ⟨hjk, hv₀⟩
      · exact absurd rfl hne
      · exact Ne.symm ((h.beside hapart hcourse (Ne.symm hjk) hv₀ hk hready).2 z hz y hy)
    · rcases hget j v hv with ⟨rfl, rfl⟩ | ⟨hjk, hv₀⟩
      · exact (h.beside hapart hcourse (Ne.symm hik) ht₀ hk hready).2 y hy z hz
      · exact h.separate i j t v hne ht₀ hv₀ y hy z hz
  · intro i t ht
    rw [hnow, hengine]
    rcases hget i t ht with ⟨rfl, rfl⟩ | ⟨hik, ht⟩
    · obtain ⟨s, a, u, hs, ha, hshadow⟩ := h.shadow i w hk
      have halone := Trace.Setup.course_alone ha hshadow.traces
      obtain ⟨a', u', hreach, hnext⟩ := hshadow.turn halone.valid.standing
        (Trace.Setup.fits_alone ha hshadow.traces) hready
      exact ⟨s, a', u', hs, ha.trans hreach, hnext⟩
    · exact (h.beside hapart hcourse (Ne.symm hik) ht hk hready).1

theorem step (h : f.Shadowed e start setups) (hapart : Trace.Setup.Apart setups)
    (hcourse : f.Each fun _ now e' t => t.OnCourse e.config t.connection.behaviour now e')
    {g : Fleet} (hs : Step f g) : g.Shadowed e start setups := by
  cases hs with
  | @act k hready =>
      obtain ⟨w, hw, hready⟩ := exists_trace_of_ready hready
      exact h.act hapart hcourse hw hready
  | @wait m hidle hw =>
      refine ⟨h.separate, ?_⟩
      intro i t ht
      obtain ⟨s, a, u, hs, ha, hshadow⟩ := h.shadow i t ht
      exact ⟨s, a, u, hs, ha, hshadow.wait (Trace.Setup.fits_alone ha hshadow.traces)
        (not_ready_of_getElem? (hidle i) ht) fun k => le_of_wake? hw ht⟩

end Shadowed

end Fleet

theorem Registry.Custody.tended {P : Token → Prop} {before after : Option Flight}
    {ops : List Operation} {r r' : Registry} (hc : Custody P before ops after r r')
    (hops : ∀ op ∈ ops, op.Passing 0) :
    ∀ y ∈ r'.entries,
      (y ∈ r.entries ∧ ∀ f ∈ before, y.token = f.token → f ∈ after) ∨
        ∃ f ∈ after, y.token = f.token := by
  induction hc with
  | lapse ops =>
      intro y hy
      exact .inl ⟨(sublist_after_passing hops).subset hy, fun f hf _ => hf⟩
  | @enter f r r' hp hr =>
      obtain ⟨-, -, rfl⟩ := register_eq_some_iff.mp hr
      intro y hy
      rcases List.mem_append.mp hy with hy | hy
      · exact .inl ⟨hy, nofun⟩
      · rw [List.mem_singleton.mp hy]
        exact .inr ⟨f, rfl, rfl⟩
  | @read f r =>
      intro y hy
      rw [entries_receive] at hy
      exact .inl ⟨hy, fun f' hf _ => hf⟩
  | @leave f r =>
      intro y hy
      have hkept : y ∈ (r.release f.token).2.entries := hy
      rw [entries_release] at hkept
      obtain ⟨hy, hother⟩ := List.mem_filter.mp hkept
      refine .inl ⟨hy, ?_⟩
      rintro f' hf' hsame
      cases hf'
      simp [hsame] at hother
  | trans _ _ ih ih' =>
      intro y hy
      rcases ih' (fun op hop => hops op (List.mem_append_right _ hop)) y hy with
        ⟨hmid, hkept⟩ | hown
      · rcases ih (fun op hop => hops op (List.mem_append_left _ hop)) y hmid with
          ⟨hold, hkept'⟩ | ⟨f, hf, hsame⟩
        · exact .inl ⟨hold, fun f hf hsame => hkept f (hkept' f hf hsame) hsame⟩
        · exact .inr ⟨f, hkept f hf hsame, hsame⟩
      · exact .inr hown

def Fleet.Tended (f : Fleet) : Prop :=
  ∀ y ∈ f.engine.registry.entries, ∃ t ∈ f.traces, ∃ z ∈ t.phase.flight?, y.token = z.token

theorem Fleet.Tended.act {f : Fleet} (h : f.Tended) {i : Nat} {v : Trace}
    (hv : f.traces[i]? = some v) {c : Config}
    (hcourse : v.OnCourse c v.connection.behaviour f.now f.engine)
    (hb : v.connection.behaviour.Allows (Registry.Operation.Passing 0))
    (hready : v.ready f.now f.engine) : (f.act i).Tended := by
  obtain ⟨es, hc⟩ := Trace.course_turn f.now hcourse.valid.standing
  have hops := (hcourse.step hready).allowed hcourse.kept hc hb
  have htended := (hc.custody (P := fun _ => True) fun _ _ _ _ => trivial).tended hops
  obtain ⟨-, hengine, htraces⟩ := act_eq hv
  have hself : (v.step f.now f.engine).1 ∈ f.traces.set i (v.step f.now f.engine).1 :=
    List.mem_set (List.getElem?_eq_some_iff.mp hv).1 _
  intro y hy
  rw [hengine] at hy
  rw [htraces]
  rcases htended y hy with ⟨hold, hkept⟩ | ⟨z, hz, hsame⟩
  · obtain ⟨t, ht, z, hz, hsame⟩ := h y hold
    obtain ⟨j, hj⟩ := List.getElem?_of_mem ht
    by_cases hij : i = j
    · subst hij
      cases hv.symm.trans hj
      exact ⟨_, hself, z, hkept z hz hsame, hsame⟩
    · refine ⟨t, List.mem_of_getElem? (i := j) ?_, z, hz, hsame⟩
      rw [List.getElem?_set_ne hij, hj]
  · exact ⟨_, hself, z, hz, hsame⟩

structure Engine.Idle (e : Engine) : Prop where
  sound : e.registry.Sound
  entries : e.registry.entries = []
  running : e.stopped = false

/-- An engine that has been used for traces alone, which are over. It has not been shut down. -/
inductive Engine.Served : Engine → Prop where
  | fresh {e : Engine} (hr : e.registry = .empty) (hs : e.stopped = false) : Served e
  | again {e : Engine} (h : Served e) (now : Instant) (setups : List Trace.Setup)
      (hb : ∀ s ∈ setups, s.behaviour.Allows (Registry.Operation.Passing 0)) {f : Fleet}
      (hf : Relation.ReflTransGen Fleet.Step (e.fleet now setups) f) (hdone : f.isFinished)
      (hs : f.engine.stopped = false) : Served f.engine

namespace Fleet

variable {e : Engine} {now : Instant} {setups : List Trace.Setup} {f : Fleet}

theorem tended_of_reaches (hs : e.registry.Sound) (hempty : e.registry.entries = [])
    (hb : ∀ s ∈ setups, s.behaviour.Allows (Registry.Operation.Passing 0))
    (hr : Relation.ReflTransGen Step (e.fleet now setups) f) : f.Tended := by
  induction hr with
  | refl =>
      intro y hy
      rw [show (e.fleet now setups).engine.registry.entries = [] from hempty] at hy
      cases hy
  | @tail k g hk hstep ih =>
      cases hstep with
      | wait hidle hw => exact ih
      | @act i hready =>
          obtain ⟨v, hv, hready⟩ := exists_trace_of_ready hready
          obtain ⟨hcourse, hb'⟩ := course_of_reaches
            (Q := fun b => b.Allows (Registry.Operation.Passing 0)) hs hb hk i v hv
          exact ih.act hv hcourse hb' hready

theorem shadowed_start (he : e.Idle) (hapart : Trace.Setup.Apart setups) :
    (e.fleet now setups).Shadowed e now setups := by
  have hget : ∀ (i : Nat) (t : Trace), (e.fleet now setups).traces[i]? = some t →
      ∃ s : Trace.Setup, setups[i]? = some s ∧ s.start now = t := by
    intro i t ht
    simpa [Engine.fleet] using ht
  refine ⟨?_, ?_⟩
  · intro i j t v hne ht hv y hy
    obtain ⟨s, -, rfl⟩ := hget i t ht
    cases hy
  · intro i t ht
    obtain ⟨s, hs, rfl⟩ := hget i t ht
    have hconnection := Connection.twin_start (hapart.events i s hs) now 0 s.cancelled
    have hstart : s.start now = s.start (0 + now) := by rw [Nat.zero_add]
    refine ⟨s, s.alone e now, s.start 0, hs, .refl, rfl, ?_, Nat.le_of_eq (Nat.zero_add now),
      .inl (Nat.zero_add now)⟩
    rw [hstart]
    refine ⟨rfl, rfl, 0, rfl, rfl, ⟨rfl, rfl, he.running⟩, ⟨rfl, rfl, rfl⟩, hconnection, ?_⟩
    intro flow hflow
    refine ⟨⟨he.sound, Nat.zero_le _, ?_⟩, ⟨Registry.sound_empty, Nat.zero_le _, rfl⟩⟩
    change e.registry.entries.filter _ = []
    rw [he.entries]
    rfl

theorem shadowed_of_reaches (he : e.Idle) (hapart : Trace.Setup.Apart setups)
    (hr : Relation.ReflTransGen Step (e.fleet now setups) f) : f.Shadowed e now setups := by
  induction hr with
  | refl => exact shadowed_start he hapart
  | tail hk hs ih =>
      have hcourse := course_of_reaches (Q := fun _ => True) he.sound (fun _ _ => trivial) hk
      exact ih.step hapart (fun i t ht => (hcourse i t ht).1) hs

end Fleet

theorem Engine.Served.idle {e : Engine} (h : e.Served) : e.Idle := by
  induction h with
  | fresh hr hs =>
      exact ⟨hr ▸ Registry.sound_empty, by rw [hr]; rfl, hs⟩
  | @again e _ now setups hb f hf hdone hs ih =>
      refine ⟨((Engine.valid_fleet_of_sound ih.sound _ _).reaches hf).1.sound, ?_, hs⟩
      refine List.eq_nil_iff_forall_not_mem.mpr fun y hy => ?_
      obtain ⟨t, ht, z, hz, -⟩ := Fleet.tended_of_reaches ih.sound ih.entries hb hf y hy
      obtain ⟨outcome, hout⟩ := Fleet.exists_outcome hdone ht
      unfold Trace.outcome? at hout
      split at hout
      · rename_i hphase
        rw [hphase] at hz
        cases hz
      · cases hout

/-- What a trace comes to, and what it sends when, is the same in company as it is alone: it does
not depend on the others, on their order, nor on what the engine has been used for before. -/
theorem Engine.traces_of_run (e : Engine) (he : e.Served) (now : Instant)
    (setups : List Trace.Setup) (hapart : Trace.Setup.Apart setups) {f : Fleet}
    (hf : Relation.ReflTransGen Fleet.Step (e.fleet now setups) f) :
    Acc (fun k g => Fleet.Step g k) f ∧ ((∀ g, ¬ Fleet.Step f g) → f.isFinished) ∧
      ∀ (i : Nat) (s : Trace.Setup), setups[i]? = some s → ∃ t u : Trace, f.traces[i]? = some t ∧
        ((e.anew now).run 0 [s.start 0]).traces = [u] ∧ u.outcome?.isSome ∧
        (t.outcome?.isSome → t.outcome? = u.outcome? ∧
          t.connection.pings = u.connection.pings.map (Ping.later now) ∧
          t.connection.ttl = u.connection.ttl) := by
  have hidle := he.idle
  have hvalid : f.Valid := ((Engine.valid_fleet_of_sound hidle.sound now setups).reaches hf).1
  refine ⟨hvalid.halts, Fleet.isFinished_of_halted, ?_⟩
  intro i s hs
  have hi : i < f.traces.length := by
    rw [Fleet.length_reaches hf]
    simpa [Engine.fleet] using (List.getElem?_eq_some_iff.mp hs).1
  have ht : f.traces[i]? = some f.traces[i] := List.getElem?_eq_getElem hi
  obtain ⟨s', a, v, hs', ha, hshadow⟩ :=
    (Fleet.shadowed_of_reaches hidle hapart hf).shadow i _ ht
  cases hs.symm.trans hs'
  have hend : Relation.ReflTransGen Fleet.Step (s.alone e now) ((e.anew now).run 0 [s.start 0]) :=
    Fleet.reaches_run _
  have hover : ((e.anew now).run 0 [s.start 0]).isFinished := (e.anew now).isFinished_run [] 0 [s]
  obtain ⟨u, hu⟩ := List.length_eq_one_iff.mp (Fleet.length_reaches hend)
  obtain ⟨outcome, hout⟩ := Fleet.exists_outcome hover (hu ▸ List.mem_singleton_self u)
  refine ⟨_, u, ht, hu, by rw [hout]; rfl, fun hdone => ?_⟩
  have hfinished : a.isFinished := by
    rw [hshadow.outcome?] at hdone
    simpa [Fleet.isFinished, hshadow.traces] using hdone
  have hsame := Fleet.end_unique rfl ha hfinished hend hover
  have htraces := hshadow.traces
  rw [hsame, hu] at htraces
  cases htraces
  exact ⟨hshadow.outcome?, hshadow.pings, hshadow.ttl⟩

theorem Event.apart_quoting {others : Flow → Prop} {src dst : Net.Ipv4} {srcPort dstPort : UInt16}
    (h : ¬ others ⟨.v4 src srcPort, .v4 dst dstPort⟩) (info : TcpInfo) (router : Net.Ip)
    (code : Option UInt8) (offset : Int) (payload : List UInt8) :
    (quoting ⟨.v4 src srcPort, .v4 dst dstPort⟩ info router (Router.kindOf code) offset
      payload).Apart others := by
  intro reply hparse
  have hkind : (Router.kindOf code).icmp.1 = 11 ∨ (Router.kindOf code).icmp.1 = 3 := by
    cases code with
    | none => exact .inl rfl
    | some code => exact .inr rfl
  rw [Packet.Reply.ofDatagram_bytes (Packet.IcmpError.wellFormed_about _ _ _ hkind)] at hparse
  cases hparse
  exact h

theorem Path.brings_apart (p : Path) {others : Flow → Prop} {src dst : Net.Ipv4}
    {srcPort dstPort : UInt16} (h : ¬ others ⟨.v4 src srcPort, .v4 dst dstPort⟩)
    (timestamps : Bool) :
    (p.behaviour (.v4 src srcPort) (.v4 dst dstPort) timestamps).Brings (Event.Apart others) := by
  refine ⟨nofun, fun ttl r hr payload => ?_⟩
  change r ∈ p.reactions _ _ ttl at hr
  unfold reactions at hr
  split at hr
  · cases hr
  · rw [List.mem_singleton.mp hr]
    exact Event.apart_quoting h _ _ _ _ _
  · split at hr
    · cases hr
    · rw [List.mem_singleton.mp hr]
      trivial

def Path.near : Path where
  routers := [.answering (.v4 ⟨10, 0, 0, 1⟩) none (Span.ofMillis 10)]
  echo := some (Span.ofMillis 20)

def Trace.Setup.near (id : String) (port : UInt16) : Setup where
  id := id
  behaviour := Path.near.behaviour (.v4 ⟨192, 0, 2, 10⟩ 443) (.v4 ⟨198, 51, 100, 20⟩ port) false

theorem Trace.Setup.allows_near (id : String) (port : UInt16) :
    (near id port).behaviour.Allows (Registry.Operation.Passing 0) := by
  have hbrings : (near id port).behaviour.Brings (Event.Apart fun _ => False) :=
    Path.near.brings_apart not_false false
  exact hbrings.allows fun _ => Event.Apart.passing

theorem Trace.Setup.apart_near : Apart [near "a" 51234, near "b" 51235] := by
  have hdistinct : ∀ (i : Nat) (s : Setup) (flow : Flow),
      [near "a" 51234, near "b" 51235][i]? = some s → Sender.flowOf s.behaviour = .ok flow →
        ¬ Others [near "a" 51234, near "b" 51235] i flow := by
    rintro i s flow hs hflow ⟨j, s', hne, hs', hflow'⟩
    match i, j, hs, hs' with
    | 0, 0, _, _ => exact hne rfl
    | 0, 1, hs, hs' =>
        cases hs
        cases hs'
        exact absurd (hflow.trans hflow'.symm) (by decide)
    | 1, 0, hs, hs' =>
        cases hs
        cases hs'
        exact absurd (hflow.trans hflow'.symm) (by decide)
    | 1, 1, _, _ => exact hne rfl
  refine ⟨hdistinct, ?_⟩
  intro i s hs
  match i, hs with
  | 0, hs =>
      cases hs
      exact Path.near.brings_apart (hdistinct 0 _ _ rfl rfl) false
  | 1, hs =>
      cases hs
      exact Path.near.brings_apart (hdistinct 1 _ _ rfl rfl) false

def Fleet.former : Fleet :=
  (Engine.fleet { config := Config.default, wallClock := fun _ => ⟨0, 0⟩ } 0
    [Trace.Setup.near "a" 51234]).run

def Fleet.repeated : Fleet :=
  (former.engine.fleet (Span.ofMillis 1000)
    [Trace.Setup.near "a" 51234, Trace.Setup.near "b" 51235]).run

theorem Fleet.former_finished : former.isFinished = true ∧ former.engine.stopped = false := by
  decide +kernel

theorem Fleet.served_former : former.engine.Served :=
  .again (.fresh rfl rfl) 0 [.near "a" 51234]
    (fun _ hs => List.mem_singleton.mp hs ▸ Trace.Setup.allows_near ..) (reaches_run _)
    former_finished.1 former_finished.2

def Trace.resultHops? (t : Trace) : Option (List Hop) :=
  t.outcome?.bind fun outcome => outcome.toOption.map TraceResult.hops

theorem Fleet.hops_repeated : repeated.traces.map Trace.resultHops? =
    List.replicate 2 (some [.resolved 1 (.v4 ⟨10, 0, 0, 1⟩) (Span.ofMillis 10) .timeExceeded,
      .resolved 2 (.v4 ⟨198, 51, 100, 20⟩) (Span.ofMillis 20) .destination]) := by
  decide +kernel

theorem Engine.traces_of_repeated_run :
    ∃ t u, Fleet.repeated.traces[0]? = some t ∧
      ((Fleet.former.engine.anew (Span.ofMillis 1000)).run 0
        [(Trace.Setup.near "a" 51234).start 0]).traces = [u] ∧
      t.resultHops? = some [.resolved 1 (.v4 ⟨10, 0, 0, 1⟩) (Span.ofMillis 10) .timeExceeded,
        .resolved 2 (.v4 ⟨198, 51, 100, 20⟩) (Span.ofMillis 20) .destination] ∧
      t.outcome? = u.outcome? ∧
      t.connection.pings = u.connection.pings.map (Ping.later (Span.ofMillis 1000)) ∧
      t.connection.ttl = u.connection.ttl := by
  obtain ⟨-, -, halone⟩ := Engine.traces_of_run Fleet.former.engine Fleet.served_former
    (Span.ofMillis 1000) [.near "a" 51234, .near "b" 51235] Trace.Setup.apart_near
    (f := Fleet.repeated) (Fleet.reaches_run _)
  obtain ⟨t, u, ht, hu, -, hsame⟩ := halone 0 _ rfl
  have hhops := congrArg (fun l => l[0]?) Fleet.hops_repeated
  simp only [List.getElem?_map, ht, Option.map_some] at hhops
  have hresult := Option.some.inj hhops
  have hdone : t.outcome?.isSome := by
    cases hout : t.outcome? with
    | none =>
        rw [Trace.resultHops?, hout] at hresult
        cases hresult
    | some outcome => rfl
  obtain ⟨hout, hpings, httl⟩ := hsame hdone
  exact ⟨t, u, ht, hu, hresult, hout, hpings, httl⟩

end InbandTrace
