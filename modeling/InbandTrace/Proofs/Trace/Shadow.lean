import InbandTrace.Proofs.Trace.Company
import InbandTrace.Proofs.Trace.Termination

namespace InbandTrace

namespace Trace

variable {t : Trace} {now : Instant} {e : Engine}

theorem idle_before_wake {m later : Instant} (h : t.ready now e = false)
    (hwake : t.wake? = some m) (hlater : later < m) : t.ready later e = false := by
  unfold wake? at hwake
  unfold ready at h ⊢
  cases hphase : t.phase with
  | opening => simp [hphase] at h
  | settling sweep giveUp wake =>
      simp only [hphase, Option.some.injEq] at hwake
      simp only [hphase, Bool.or_eq_false_iff] at h
      simp [h.1, hwake, hlater]
  | writing sweep d =>
      simp only [hphase, Option.some.injEq] at hwake
      simp [hwake, hlater]
  | awaiting sweep f =>
      simp only [hphase, Option.some.injEq] at hwake
      simp only [hphase, Bool.or_eq_false_iff] at h
      obtain ⟨⟨⟨⟨hcancel, hbox⟩, hinbox⟩, -⟩, -⟩ := h
      obtain ⟨hdeadline, hagenda⟩ := Agenda.foldl_min_le t.connection.agenda f.deadline
      rw [hwake] at hdeadline hagenda
      have hdue : t.connection.isDue later = false := by
        simp only [Connection.isDue, List.any_eq_false, decide_eq_true_eq, Nat.not_le]
        exact fun x hx => Nat.lt_of_lt_of_le hlater (hagenda x hx)
      have hearly : ¬ f.deadline ≤ later :=
        Nat.not_le_of_lt (Nat.lt_of_lt_of_le hlater hdeadline)
      simp [hcancel, hbox, hinbox, hdue, hearly]
  | finished outcome at_ => rfl

theorem le_wake {m : Instant} (h : t.ready now e = false) (hwake : t.wake? = some m) :
    now ≤ m := by
  refine Nat.le_of_lt (Nat.lt_of_not_le fun hle => ?_)
  rw [ready_of_wake? hwake hle] at h
  cases h

theorem ne_opening_of_idle (h : t.ready now e = false) : t.phase ≠ .opening := by
  intro hphase
  simp [ready, hphase] at h

theorem exists_wake_of_ready (h : t.ready now e) : ∃ m, t.wake? = some m := by
  refine Option.isSome_iff_exists.mp (isSome_wake?_iff.mpr ?_)
  unfold ready at h
  unfold outcome?
  split
  · rename_i hphase
    simp [hphase] at h
  · rfl

end Trace

namespace Fleet

theorem act_alone {f : Fleet} {t : Trace} (ht : f.traces = [t]) (hready : t.ready f.now f.engine) :
    ∃ g, Step f g ∧ g.now = f.now ∧ g.engine = (t.step f.now f.engine).2 ∧
      g.traces = [(t.step f.now f.engine).1] := by
  refine ⟨f.act 0, .act ?_, ?_, ?_, ?_⟩
  · simpa [isReady, ht] using hready
  · simp [Fleet.act, ht]
  · simp [Fleet.act, ht]
  · simp [Fleet.act, ht]

theorem wait_alone {f : Fleet} {t : Trace} {m : Instant} (ht : f.traces = [t])
    (hidle : t.ready f.now f.engine = false) (hwake : t.wake? = some m) :
    ∃ g, Step f g ∧ g.now = max f.now m ∧ g.engine = f.engine ∧ g.traces = [t] := by
  refine ⟨{ f with now := max f.now m, next := 0 }, .wait ?_ ?_, rfl, rfl, ht⟩
  · intro i
    cases i with
    | zero => simpa [isReady, ht] using hidle
    | succ i => simp [isReady, ht]
  · simp [Fleet.wake?, ht, hwake]

theorem step_unique {f g k : Fleet} {t : Trace} (ht : f.traces = [t]) (hg : Step f g)
    (hk : Step f k) : g = k := by
  have honly : ∀ {i : Nat}, f.isReady i → i = 0 := by
    intro i hready
    cases i with
    | zero => rfl
    | succ i => simp [isReady, ht] at hready
  cases hg with
  | act hready =>
      cases hk with
      | act hready' => rw [honly hready, honly hready']
      | wait hidle hw =>
          rw [hidle] at hready
          cases hready
  | wait hidle hw =>
      cases hk with
      | act hready =>
          rw [hidle] at hready
          cases hready
      | wait hidle' hw' =>
          rw [hw] at hw'
          cases hw'
          rfl

theorem halted_of_finished {f g : Fleet} (h : f.isFinished) : ¬ Step f g := by
  have hover : ∀ t ∈ f.traces, t.outcome? ≠ none := by
    intro t ht hnone
    have hout := List.all_eq_true.mp h t ht
    simp [hnone] at hout
  intro hs
  cases hs with
  | @act i hready =>
      obtain ⟨t, ht, hready⟩ := exists_trace_of_ready hready
      obtain ⟨m, hm⟩ := Trace.exists_wake_of_ready hready
      exact hover t (List.mem_of_getElem? ht) (Trace.isSome_wake?_iff.mp (by simp [hm]))
  | wait hidle hw =>
      obtain ⟨t, ht, hm⟩ := List.mem_filterMap.mp (List.min?_mem hw)
      exact hover t ht (Trace.isSome_wake?_iff.mp (by simp [hm]))

theorem end_unique {f g k : Fleet} (hlength : f.traces.length = 1)
    (hg : Relation.ReflTransGen Step f g) (hfin : g.isFinished)
    (hk : Relation.ReflTransGen Step f k) (hfin' : k.isFinished) : g = k := by
  induction hg using Relation.ReflTransGen.head_induction_on with
  | refl =>
      cases hk.cases_head with
      | inl hsame => exact hsame
      | inr hfirst =>
          obtain ⟨f', hs, -⟩ := hfirst
          exact absurd hs (halted_of_finished hfin)
  | @head f f' hs hrest ih =>
      cases hk.cases_head with
      | inl hsame =>
          subst hsame
          exact absurd hs (halted_of_finished hfin')
      | inr hfirst =>
          obtain ⟨f'', hs', hrest'⟩ := hfirst
          obtain ⟨t, ht⟩ := List.length_eq_one_iff.mp hlength
          obtain rfl := step_unique ht hs hs'
          exact ih ((length_step hs).trans hlength) hrest'

end Fleet

namespace Trace

/-- A trace in company, and the state that it has reached alone. The clock there may have been left
behind, as long as nothing is to be done in between. -/
structure Shadow (x : Company) (b : Behaviour) (now : Instant) (e : Engine) (t : Trace)
    (a : Fleet) (u : Trace) : Prop where
  traces : a.traces = [u]
  twin : t.Twin x b (a.now + x.delay) e a.now a.engine u
  behind : a.now + x.delay ≤ now
  idle : a.now + x.delay = now ∨
    u.ready a.now a.engine = false ∧ ∀ m, u.wake? = some m → now ≤ m + x.delay

namespace Twin

variable {x : Company} {b : Behaviour} {now now' : Instant} {e e' : Engine} {t u : Trace}

theorem at_ (h : t.Twin x b now e now' e' u) (m : Instant) :
    t.Twin x b (m + x.delay) e m e' u := by
  obtain ⟨n, hphase, hw⟩ := h.abreast
  exact ⟨h.id, h.independent, n, hphase, rfl, hw.engine, hw.engine', hw.connection, hw.registry⟩

end Twin

namespace Shadow

variable {x : Company} {b : Behaviour} {now : Instant} {e : Engine} {t u : Trace} {a : Fleet}

theorem wait (h : Shadow x b now e t a u) (hfits : u.Fits b) (hidle : t.ready now e = false)
    {m : Instant} (hm : ∀ k, t.wake? = some k → m ≤ k) : Shadow x b (max now m) e t a u := by
  have hopen : u.ready a.now a.engine = false ∧
      ∀ k, u.wake? = some k → now ≤ k + x.delay := by
    rcases h.idle with hsame | hlag
    · have hready := h.twin.ready hfits
      rw [hsame, hidle] at hready
      refine ⟨hready.symm, fun k hk => ?_⟩
      rw [← hsame]
      exact Nat.add_le_add_right (le_wake hready.symm hk) _
    · exact hlag
  have hwake := h.twin.wake? (ne_opening_of_idle hopen.1)
  refine ⟨h.traces, h.twin, Nat.le_trans h.behind (Nat.le_max_left ..), .inr ⟨hopen.1, ?_⟩⟩
  intro k hk
  refine Nat.max_le.mpr ⟨hopen.2 k hk, hm _ ?_⟩
  rw [hwake, hk]
  rfl

theorem catchUp (h : Shadow x b now e t a u) (hfits : u.Fits b) (hready : t.ready now e) :
    ∃ a', Relation.ReflTransGen Fleet.Step a a' ∧ a'.now + x.delay = now ∧
      a'.engine = a.engine ∧ a'.traces = [u] := by
  rcases h.idle with hsame | ⟨hidle, hlag⟩
  · exact ⟨a, .refl, hsame, rfl, h.traces⟩
  · have hwake := h.twin.wake? (ne_opening_of_idle hidle)
    obtain ⟨later, rfl⟩ : ∃ later, now = later + x.delay :=
      ⟨_, (Nat.sub_add_cancel (Nat.le_trans (Nat.le_add_left _ _) h.behind)).symm⟩
    have hlate : a.now ≤ later := Nat.le_of_add_le_add_right h.behind
    have hready' : u.ready later a.engine := by
      rw [← (h.twin.at_ later).ready hfits]
      exact hready
    obtain ⟨m, hm⟩ := exists_wake_of_ready hready'
    have hle : later ≤ m := Nat.le_of_add_le_add_right (hlag m hm)
    -- The lone clock cannot stop before the time of the turn: nothing is ready there until then.
    have hsame : m = later := by
      refine Nat.le_antisymm (Nat.le_of_not_lt fun hlt => ?_) hle
      rw [idle_before_wake hidle hm hlt] at hready'
      cases hready'
    obtain ⟨a', hs, hnow, he, ht⟩ := Fleet.wait_alone h.traces hidle hm
    refine ⟨a', .single hs, ?_, he, ht⟩
    rw [hnow, hsame, Nat.max_eq_right hlate]

theorem turn (h : Shadow x b now e t a u) (hstand : u.phase.Standing a.engine.registry)
    (hfits : u.Fits b) (hready : t.ready now e) :
    ∃ a' u', Relation.ReflTransGen Fleet.Step a a' ∧
      Shadow x b now (t.step now e).2 (t.step now e).1 a' u' := by
  obtain ⟨a', hreach, hnow, he, ht⟩ := h.catchUp hfits hready
  have htwin := h.twin.at_ a'.now
  rw [hnow, ← he] at htwin
  rw [← he] at hstand
  have hready' : u.ready a'.now a'.engine := by
    rw [← htwin.ready hfits]
    exact hready
  obtain ⟨a'', hs, hnow', he', ht'⟩ := Fleet.act_alone ht hready'
  have hnext := htwin.step hstand hfits
  refine ⟨a'', _, hreach.tail hs, ht', ?_, ?_, ?_⟩
  · rw [hnow', he', hnow]
    exact hnext
  · rw [hnow', hnow]
  · rw [hnow', hnow]
    exact .inl rfl

theorem outcome? (h : Shadow x b now e t a u) : t.outcome? = u.outcome? := by
  obtain ⟨n, hphase, -⟩ := h.twin.abreast
  simp only at hphase
  rw [Trace.outcome?, Trace.outcome?, hphase]
  cases u.phase <;> rfl

theorem pings (h : Shadow x b now e t a u) :
    t.connection.pings = u.connection.pings.map (Ping.later x.delay) := by
  obtain ⟨n, -, hw⟩ := h.twin.abreast
  exact hw.connection.pings

theorem ttl (h : Shadow x b now e t a u) : t.connection.ttl = u.connection.ttl := by
  obtain ⟨n, -, hw⟩ := h.twin.abreast
  exact hw.connection.ttl

theorem other (h : Shadow x b now e t a u) {e₂ : Engine} (hlike : e₂.Like x.host)
    (hviews : ∀ n, b.Views x.delay n u.phase.flight? e.registry a.engine.registry →
      t.phase = u.phase.later x.delay n →
      b.Views x.delay n u.phase.flight? e₂.registry a.engine.registry) :
    Shadow x b now e₂ t a u := by
  obtain ⟨n, hphase, hw⟩ := h.twin.abreast
  exact ⟨h.traces, ⟨h.twin.id, h.twin.independent, n, hphase, hw.now, hlike, hw.engine',
    hw.connection, hviews n hw.registry hphase⟩, h.behind, h.idle⟩

end Shadow

end Trace

end InbandTrace
