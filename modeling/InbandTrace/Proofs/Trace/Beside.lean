import InbandTrace.Proofs.Trace.Custody

namespace InbandTrace

theorem Registry.Custody.exists_after {P : Token → Prop} {Q : Operation → Prop}
    {before after : Option Flight} {ops : List Operation} {r r' : Registry}
    (hc : Custody P before ops after r r') (hops : ∀ op ∈ ops, Q op)
    (hregister : ∀ token ttl s d, P token → Q (.register token ttl s d))
    (hreceive : ∀ n, Q (.receive n)) (hrelease : ∀ token, Q (.release token))
    (hdrop : ∀ n, Q (.drop n)) : ∃ all, (∀ op ∈ all, Q op) ∧ r' = r.after all := by
  induction hc with
  | lapse ops => exact ⟨ops, hops, rfl⟩
  | @enter f r r' hp hr =>
      refine ⟨[.register f.token f.ttl f.sentAt f.deadline], ?_, ?_⟩
      · simp [hregister _ _ _ _ hp]
      · simp [Registry.after, Registry.apply, hr]
  | @read f r => exact ⟨[.receive f.mailbox], by simp [hreceive], rfl⟩
  | @leave f r => exact ⟨[.release f.token, .drop f.mailbox], by simp [hrelease, hdrop], rfl⟩
  | trans _ _ ih ih' =>
      obtain ⟨xs, hxs, rfl⟩ := ih fun op hop => hops op (List.mem_append_left _ hop)
      obtain ⟨ys, hys, rfl⟩ := ih' fun op hop => hops op (List.mem_append_right _ hop)
      refine ⟨xs ++ ys, ?_, (after_append _ xs ys).symm⟩
      intro op hop
      exact (List.mem_append.mp hop).elim (hxs op) (hys op)

namespace Trace.OnCourse

variable {c : Config} {b : Behaviour} {now : Instant} {e e' : Engine} {t : Trace}

theorem self (h : t.OnCourse c b now e) : t.OnCourse c t.connection.behaviour now e := by
  rw [h.behaviour]
  exact h

theorem beside (h : t.OnCourse c b now e) (hc : e'.config = e.config)
    {ops : List Registry.Operation} (hr : e'.registry = e.registry.after ops) :
    t.OnCourse c b now e' :=
  ⟨h.valid.of_after hc hr, hr ▸ h.sound.after ops, hc.trans h.config, h.behaviour, h.kept,
    h.equipped⟩

end Trace.OnCourse

namespace Fleet

theorem act_eq {f : Fleet} {i : Nat} {t : Trace} (ht : f.traces[i]? = some t) :
    (f.act i).now = f.now ∧ (f.act i).engine = (t.step f.now f.engine).2 ∧
      (f.act i).traces = f.traces.set i (t.step f.now f.engine).1 := by
  simp [Fleet.act, ht]

/-- A step, seen from the place of one trace: its own turn, the turn of another, or a wait. -/
inductive Seen (f g : Fleet) (i : Nat) (t : Trace) : Trace → Prop where
  | turn (hready : t.ready f.now f.engine) (hnow : g.now = f.now)
      (he : g.engine = (t.step f.now f.engine).2) : Seen f g i t (t.step f.now f.engine).1
  | other {j : Nat} {u : Trace} (hne : j ≠ i) (hu : f.traces[j]? = some u)
      (hready : u.ready f.now f.engine) (hnow : g.now = f.now)
      (he : g.engine = (u.step f.now f.engine).2) : Seen f g i t t
  | wait {m : Instant} (hidle : t.ready f.now f.engine = false)
      (hwake : ∀ k, t.wake? = some k → m ≤ k) (hnow : g.now = max f.now m)
      (he : g.engine = f.engine) : Seen f g i t t

theorem Step.seen {f g : Fleet} (hs : Step f g) {i : Nat} {t : Trace}
    (ht : f.traces[i]? = some t) : ∃ u, g.traces[i]? = some u ∧ Seen f g i t u := by
  cases hs with
  | @act j hready =>
      obtain ⟨u, hu, hready⟩ := exists_trace_of_ready hready
      obtain ⟨hnow, he, htraces⟩ := act_eq hu
      rw [htraces]
      by_cases hj : j = i
      · subst hj
        cases hu.symm.trans ht
        exact ⟨_, List.getElem?_set_self (List.getElem?_eq_some_iff.mp ht).1,
          .turn hready hnow he⟩
      · refine ⟨t, ?_, .other hj hu hready hnow he⟩
        rw [List.getElem?_set_ne hj, ht]
  | @wait m hidle hw =>
      exact ⟨t, ht, .wait (not_ready_of_getElem? (hidle i) ht) (fun k => le_of_wake? hw ht) rfl rfl⟩

def Each (P : Nat → Instant → Engine → Trace → Prop) (f : Fleet) : Prop :=
  ∀ i t, f.traces[i]? = some t → P i f.now f.engine t

theorem each_fleet {P : Nat → Instant → Engine → Trace → Prop} {e : Engine} {now : Instant}
    {setups : List Trace.Setup} (h : ∀ i s, setups[i]? = some s → P i now e (s.start now)) :
    (e.fleet now setups).Each P := by
  intro i t ht
  simp only [Engine.fleet, List.getElem?_map, Option.map_eq_some_iff] at ht
  obtain ⟨s, hs, rfl⟩ := ht
  exact h i s hs

variable {P : Nat → Instant → Engine → Trace → Prop} {f g : Fleet}

theorem Each.step (h : f.Each P)
    (hturn : ∀ i now e t, P i now e t → t.ready now e → P i now (t.step now e).2 (t.step now e).1)
    (hother : ∀ i j now e t u, j ≠ i → P i now e t → P j now e u → u.ready now e →
      P i now (u.step now e).2 t)
    (hwait : ∀ i now e t m, P i now e t → t.ready now e = false →
      (∀ k, t.wake? = some k → m ≤ k) → P i (max now m) e t)
    (hs : Step f g) : g.Each P := by
  intro i u hu
  have hi : i < f.traces.length := by
    rw [← length_step hs]
    exact (List.getElem?_eq_some_iff.mp hu).1
  have ht : f.traces[i]? = some f.traces[i] := List.getElem?_eq_getElem hi
  have hp := h i _ ht
  obtain ⟨u', hu', hseen⟩ := hs.seen ht
  cases hu.symm.trans hu'
  cases hseen with
  | turn hready hnow he =>
      rw [hnow, he]
      exact hturn i _ _ _ hp hready
  | other hne hj hready hnow he =>
      rw [hnow, he]
      exact hother i _ _ _ _ _ hne hp (h _ _ hj) hready
  | wait hidle hwake hnow he =>
      rw [hnow, he]
      exact hwait i _ _ _ _ hp hidle hwake

theorem Each.reaches (h : f.Each P)
    (hturn : ∀ i now e t, P i now e t → t.ready now e → P i now (t.step now e).2 (t.step now e).1)
    (hother : ∀ i j now e t u, j ≠ i → P i now e t → P j now e u → u.ready now e →
      P i now (u.step now e).2 t)
    (hwait : ∀ i now e t m, P i now e t → t.ready now e = false →
      (∀ k, t.wake? = some k → m ≤ k) → P i (max now m) e t)
    (hr : Relation.ReflTransGen Step f g) : g.Each P := by
  induction hr with
  | refl => exact h
  | tail _ hs ih => exact ih.step hturn hother hwait hs

theorem Each.onCourse {c : Config}
    (hturn : ∀ i now e t es, t.OnCourse c t.connection.behaviour now e → P i now e t →
      World.Course (t.world now e) t.phase es (t.turn now e) →
      (t.step now e).1.OnCourse c t.connection.behaviour now (t.step now e).2 →
      P i now (t.step now e).2 (t.step now e).1)
    (hother : ∀ i j now e t u es, j ≠ i → P i now e t → P j now e u →
      u.OnCourse c u.connection.behaviour now e →
      World.Course (u.world now e) u.phase es (u.turn now e) →
      (u.step now e).1.OnCourse c u.connection.behaviour now (u.step now e).2 →
      P i now (u.step now e).2 t)
    (hwait : ∀ i now e t m, P i now e t → t.ready now e = false →
      (∀ k, t.wake? = some k → m ≤ k) → P i (max now m) e t)
    (h : f.Each fun i now e t => t.OnCourse c t.connection.behaviour now e ∧ P i now e t)
    (hr : Relation.ReflTransGen Step f g) :
    g.Each fun i now e t => t.OnCourse c t.connection.behaviour now e ∧ P i now e t := by
  refine h.reaches ?_ ?_ ?_ hr
  · rintro i now e t ⟨hcourse, hp⟩ hready
    obtain ⟨es, hc⟩ := Trace.course_turn now hcourse.valid.standing
    have hnext := hcourse.step hready
    exact ⟨hnext.self, hturn i now e t es hcourse hp hc hnext⟩
  · rintro i j now e t u hne ⟨hcourse, hp⟩ ⟨hcourse', hp'⟩ hready
    obtain ⟨es, hc⟩ := Trace.course_turn now hcourse'.valid.standing
    obtain ⟨-, hconfig, ops, hafter⟩ := hcourse'.valid.step now hcourse'.sound
    exact ⟨hcourse.beside hconfig hafter,
      hother i j now e t u es hne hp hp' hcourse' hc (hcourse'.step hready)⟩
  · rintro i now e t m ⟨hcourse, hp⟩ hidle hwake
    exact ⟨hcourse.wait (Nat.le_max_left ..), hwait i now e t m hp hidle hwake⟩

theorem course_of_reaches {Q : Behaviour → Prop} {e : Engine} {now : Instant}
    {setups : List Trace.Setup} (hs : e.registry.Sound) (hq : ∀ s ∈ setups, Q s.behaviour)
    (hr : Relation.ReflTransGen Step (e.fleet now setups) f) :
    f.Each fun _ now e' t => t.OnCourse e.config t.connection.behaviour now e' ∧
      Q t.connection.behaviour := by
  refine Each.onCourse ?_ ?_ ?_ (each_fleet ?_) hr
  · intro i now e' t es hcourse hq hc hnext
    rw [hnext.behaviour]
    exact hq
  · intro i j now e' t u es hne hq hq' hcourse' hc hnext'
    exact hq
  · intro i now e' t m hq hidle hwake
    exact hq
  · intro i s hs'
    exact ⟨.start s now hs, hq s (List.mem_of_getElem? hs')⟩

theorem Valid.follow {P : Instant → Engine → Trace → Prop} {i : Nat} {t : Trace} (h : f.Valid)
    (hturn : ∀ now e (t : Trace), t.Valid e → P now e t → t.ready now e →
      P now (t.step now e).2 (t.step now e).1)
    (hother : ∀ now e t (u : Trace), u.Valid e → P now e t → u.ready now e →
      P now (u.step now e).2 t)
    (hwait : ∀ now e t m, P now e t → t.ready now e = false →
      (∀ k, t.wake? = some k → m ≤ k) → P (max now m) e t)
    (ht : f.traces[i]? = some t) (hp : P f.now f.engine t)
    (hr : Relation.ReflTransGen Step f g) :
    ∃ u, g.traces[i]? = some u ∧ P g.now g.engine u := by
  induction hr with
  | refl => exact ⟨t, ht, hp⟩
  | @tail k g hk hs ih =>
      obtain ⟨v, hv, hp⟩ := ih
      have hvalid := (h.reaches hk).1
      obtain ⟨u, hu, hseen⟩ := hs.seen hv
      refine ⟨u, hu, ?_⟩
      cases hseen with
      | turn hready hnow he =>
          rw [hnow, he]
          exact hturn _ _ _ (hvalid.traces v (List.mem_of_getElem? hv)) hp hready
      | other hne hj hready hnow he =>
          rw [hnow, he]
          exact hother _ _ _ _ (hvalid.traces _ (List.mem_of_getElem? hj)) hp hready
      | wait hidle hwake hnow he =>
          rw [hnow, he]
          exact hwait _ _ _ _ hp hidle hwake

end Fleet

end InbandTrace
