import InbandTrace.Proofs.Trace.Run
import Mathlib.Algebra.Order.Ring.Nat

namespace InbandTrace

def Behaviour.reactionsFrom (b : Behaviour) (ttl : Nat) : Nat :=
  ((List.range' ttl (256 - ttl)).map fun t => (b.write t).reactions.length).sum

theorem Behaviour.reactionsFrom_of_lt (b : Behaviour) (ttl : Nat) (h : ttl < 256) :
    b.reactionsFrom ttl = (b.write ttl).reactions.length + b.reactionsFrom (ttl + 1) := by
  have hrange : 256 - ttl = (256 - (ttl + 1)) + 1 := by omega
  rw [reactionsFrom, hrange, List.range'_succ, List.map_cons, List.sum_cons, reactionsFrom]

theorem Behaviour.reactionsFrom_anti (b : Behaviour) {k n : Nat} (h : k + n ≤ 256) :
    b.reactionsFrom (k + n) ≤ b.reactionsFrom k := by
  induction n with
  | zero => exact Nat.le_refl _
  | succ n ih =>
      have hstep := b.reactionsFrom_of_lt (k + n) (by omega)
      have hrest := ih (by omega)
      rw [← Nat.add_assoc]
      omega

theorem foldl_add_eq_sum {α : Type} (f : α → Nat) (l : List α) (n : Nat) :
    l.foldl (fun n x => n + f x) n = n + (l.map f).sum := by
  induction l generalizing n with
  | nil => simp
  | cons x rest ih =>
      rw [List.foldl_cons, ih, List.map_cons, List.sum_cons, Nat.add_assoc]

namespace Settle

def looks (giveUp wake : Instant) : Nat := (giveUp - wake + interval - 1) / interval + 1

theorem looks_start (now : Instant) : looks (now + patience) now = 601 := by
  simp only [looks, Nat.add_sub_cancel_left]
  decide

theorem looks_pos (giveUp wake : Instant) : 0 < looks giveUp wake := Nat.succ_pos _

theorem looks_next {giveUp wake now : Nat} (hw : wake ≤ now) (hn : now < giveUp) :
    looks giveUp (now + interval) < looks giveUp wake := by
  have hi : interval = 5000000 := rfl
  simp only [looks, hi]
  omega

end Settle

namespace Phase

def perTtl : Nat := Settle.patience / Settle.interval + 5

theorem perTtl_eq : perTtl = 605 := rfl

def rank (c : Connection) : Phase → Nat
  | .opening => 256 * perTtl + c.behaviour.reactionsFrom 0 + c.agenda.length + 1
  | .settling sweep giveUp wake =>
      (255 - sweep.ttl.toNat) * perTtl + c.behaviour.reactionsFrom sweep.ttl.toNat
        + c.agenda.length + 3 + Settle.looks giveUp wake
  | .writing sweep _ =>
      (255 - sweep.ttl.toNat) * perTtl + c.behaviour.reactionsFrom (sweep.ttl.toNat + 1)
        + c.agenda.length + 3
  | .awaiting sweep _ =>
      (255 - sweep.ttl.toNat) * perTtl + c.behaviour.reactionsFrom (sweep.ttl.toNat + 1)
        + c.agenda.length + 1 + min c.inbox.length 1
  | .finished .. => 0

end Phase

namespace World

theorem rank_finish {w : World} {s : Session} {abort : Option Abort} (c : Connection) :
    (w.finish s abort).1.rank c = 0 := rfl

theorem rank_conclude {w w' : World} (sweep : Sweep) (hop : Hop) (hw : w.Follows w')
    (httl : hop.ttl = sweep.ttl)
    (hstate : sweep.session.state = .awaitingResponse hop.ttl) :
    (w'.conclude sweep hop).1.rank (w'.conclude sweep hop).2.connection <
      (255 - sweep.ttl.toNat) * Phase.perTtl
        + w.connection.behaviour.reactionsFrom (sweep.ttl.toNat + 1)
        + w.connection.agenda.length + 1 := by
  rw [conclude_of_awaited hstate]
  cases hends : sweep.session.endsWith hop with
  | true =>
      simp only [if_true, rank_finish]
      omega
  | false =>
      simp only [Bool.false_eq_true, if_false]
      have hnext := Session.toNat_next_of_not_endsWith (Bool.eq_false_iff.mp hends)
      rw [httl] at hnext
      have hmax := (sweep.ttl + 1).toNat_lt
      have hagenda := hw.agenda.length_le
      simp only [settling, Sweep.onward, Phase.rank, httl, hnext, hw.behaviour,
        Settle.looks_start, Phase.perTtl_eq]
      omega

end World

namespace Trace

def rank (t : Trace) : Nat := t.phase.rank t.connection

theorem rank_pos {t : Trace} (h : t.outcome? = none) : 0 < t.rank := by
  unfold rank
  cases hphase : t.phase with
  | finished outcome at_ => simp [outcome?, hphase] at h
  | _ =>
      simp only [Phase.rank]
      omega

theorem rank_step_of_cancelled {t : Trace} {now : Instant} {e : Engine}
    (hstand : t.phase.Standing e.registry) (hcancel : t.isCancelled e = true)
    (hwait : (∃ sweep giveUp wake, t.phase = .settling sweep giveUp wake) ∨
      ∃ sweep flight, t.phase = .awaiting sweep flight) :
    (t.step now e).1.rank = 0 := by
  rw [world_step, rank]
  obtain ⟨sweep, giveUp, wake, hphase⟩ | ⟨sweep, flight, hphase⟩ := hwait
  · have hopen := hstand.isOpen (by rw [hphase, Phase.sweep?])
    simp only [turn, hphase, hcancel, if_true, World.giveUp_of_open hopen]
    exact World.rank_finish _
  · have hopen := hstand.isOpen (by rw [hphase, Phase.sweep?])
    simp only [turn, hphase, hcancel, if_true, World.giveUp_of_open hopen]
    exact World.rank_finish _

variable {t : Trace} {now : Instant} {e : Engine}

theorem rank_opening (hphase : t.phase = .opening) {turn : Turn}
    (hm : World.Move (t.world now e) .opening turn) :
    turn.1.rank turn.2.connection < t.rank := by
  rw [Trace.rank, hphase]
  cases hm with
  | @opened w' id sender h =>
      have hev := World.follows_of_start h
      have hagenda : w'.connection.agenda.length ≤ t.connection.agenda.length :=
        hev.agenda.length_le
      have hbehaviour : w'.connection.behaviour = t.connection.behaviour := hev.behaviour
      simp only [Phase.rank, World.settling, World.begun, Settle.looks_start, hbehaviour,
        Phase.perTtl_eq]
      generalize (w'.sessionTo id sender.flow.dst.ip).firstTtl = ttl
      have hmax := ttl.toNat_lt
      have hmore := t.connection.behaviour.reactionsFrom_anti (k := 0) (n := ttl.toNat) (by omega)
      rw [Nat.zero_add] at hmore
      omega
  | refused h =>
      rw [World.rank_finish]
      exact Nat.succ_pos _
  | aborted hp hw ha => cases hp

theorem rank_settling {sweep : Sweep} {giveUp wake : Instant}
    (hphase : t.phase = .settling sweep giveUp wake) (hwake : wake ≤ now) {turn : Turn}
    (hm : World.Move (t.world now e) (.settling sweep giveUp wake) turn) :
    turn.1.rank turn.2.connection < t.rank := by
  rw [Trace.rank, hphase]
  have hmax := sweep.ttl.toNat_lt
  have hmore := t.connection.behaviour.reactionsFrom_of_lt _ hmax
  have hpos := Settle.looks_pos giveUp wake
  cases hm with
  | paused hw ht =>
      have hlooks := Settle.looks_next hwake ht
      have hagenda := hw.agenda.length_le
      simp only [Phase.rank, hw.behaviour]
      simp only [world] at hagenda hlooks ⊢
      omega
  | launched hw hl =>
      have hev := hw.trans (hl.evolves trivial)
      have hagenda := hev.agenda.length_le
      simp only [hl.pinged, Phase.rank, World.ping, Connection.ping, hl.lowered,
        Agenda.length_scheduleAll, List.length_map, hev.behaviour]
      simp only [world] at hagenda ⊢
      omega
  | @collided w' _ _ _ s hw hsame =>
      have hlt := World.rank_conclude { World.awaited sweep with sender := s }
        (.timedOut sweep.ttl) hw rfl rfl
      refine Nat.lt_of_lt_of_le hlt ?_
      simp only [Phase.rank, World.awaited]
      simp only [world]
      omega
  | aborted hp hw ha =>
      rw [World.rank_finish]
      simp only [Phase.rank]
      omega

theorem rank_writing {sweep : Sweep} {d : Departure} (hphase : t.phase = .writing sweep d)
    {turn : Turn} (hm : World.Move (t.world now e) (.writing sweep d) turn) :
    turn.1.rank turn.2.connection < t.rank := by
  rw [Trace.rank, hphase]
  cases hm with
  | landed hw =>
      have hagenda := hw.agenda.length_le
      simp only [Phase.rank, World.awaited, hw.behaviour]
      simp only [world] at hagenda ⊢
      omega
  | aborted hp hw ha =>
      rw [World.rank_finish]
      simp only [Phase.rank]
      omega

theorem rank_awaiting {sweep : Sweep} {flight : Flight} (h : t.Valid e)
    (hphase : t.phase = .awaiting sweep flight)
    (hready : e.registry.mailbox? flight.mailbox ≠ some .waiting ∨ t.connection.inbox ≠ [] ∨
      t.connection.isDue now ∨ flight.deadline ≤ now)
    {turn : Turn} (hm : World.Move (t.world now e) (.awaiting sweep flight) turn) :
    turn.1.rank turn.2.connection < t.rank := by
  have hstand := h.standing
  rw [hphase] at hstand
  obtain ⟨hstate, httl, hass⟩ := hstand
  rw [Trace.rank, hphase]
  cases hm with
  | heard hw hh =>
      have hhop := hh.ttl httl hass
      refine Nat.lt_of_lt_of_le (World.rank_conclude _ _ hw hhop (hstate.trans (by rw [hhop]))) ?_
      simp only [Phase.rank, world]
      omega
  | waited hw hempty ht hinbox hagenda =>
      have hle := hw.agenda.length_le
      have hone : t.connection.inbox ≠ [] → min t.connection.inbox.length 1 = 1 := by
        intro hne
        have := List.length_pos_of_ne_nil hne
        omega
      simp only [Phase.rank, hw.behaviour, hinbox, List.length_nil]
      simp only [world] at hle hagenda ht ⊢
      rcases hready with hbox | hin | hdue | hlate
      · exact absurd hempty hbox
      · have := hone hin
        omega
      · simp only [Connection.isDue, List.any_eq_true, decide_eq_true_eq] at hdue
        obtain ⟨x, hx, hxdue⟩ := hdue
        have hshort := Agenda.length_dropWhile_lt h.ordered hx hxdue
        have hgone := Nat.lt_of_le_of_lt (Nat.le_of_eq (congrArg List.length hagenda)) hshort
        omega
      · exact absurd hlate (Nat.not_le_of_lt ht)
  | aborted hp hw ha =>
      rw [World.rank_finish]
      simp only [Phase.rank]
      omega

theorem rank_step_lt (h : t.Valid e) (hready : t.ready now e) :
    (t.step now e).1.rank < t.rank := by
  have hmove := move_turn now h.standing
  cases hphase : t.phase with
  | finished outcome at_ => simp [ready, hphase] at hready
  | opening =>
      rw [hphase] at hmove
      exact rank_opening hphase hmove
  | settling sweep giveUp wake =>
      by_cases hcancel : t.isCancelled e = true
      · rw [rank_step_of_cancelled h.standing hcancel (.inl ⟨_, _, _, hphase⟩)]
        exact rank_pos (by simp [outcome?, hphase])
      · have hwake : wake ≤ now := by
          simpa [ready, hphase, hcancel] using hready
        rw [hphase] at hmove
        exact rank_settling hphase hwake hmove
  | writing sweep d =>
      rw [hphase] at hmove
      exact rank_writing hphase hmove
  | awaiting sweep flight =>
      by_cases hcancel : t.isCancelled e = true
      · rw [rank_step_of_cancelled h.standing hcancel (.inr ⟨_, _, hphase⟩)]
        exact rank_pos (by simp [outcome?, hphase])
      · have hawake : e.registry.mailbox? flight.mailbox ≠ some .waiting ∨
            t.connection.inbox ≠ [] ∨ t.connection.isDue now ∨ flight.deadline ≤ now := by
          simpa [ready, hphase, hcancel, or_assoc] using hready
        rw [hphase] at hmove
        exact rank_awaiting h hphase hawake hmove

theorem ready_of_wake? {m : Instant} (h : t.wake? = some m) (hm : m ≤ now) : t.ready now e := by
  unfold wake? at h
  cases hphase : t.phase with
  | finished outcome at_ => simp [hphase] at h
  | opening => simp [ready, hphase]
  | settling sweep giveUp wake =>
      simp only [hphase, Option.some.injEq] at h
      simp [ready, hphase, h ▸ hm]
  | writing sweep d =>
      simp only [hphase, Option.some.injEq] at h
      simp [ready, hphase, h ▸ hm]
  | awaiting sweep flight =>
      simp only [hphase, Option.some.injEq] at h
      rcases Agenda.of_foldl_min_le (h ▸ hm) with hlate | ⟨x, hx, hdue⟩
      · simp [ready, hphase, hlate]
      · have : t.connection.isDue now := by
          simp only [Connection.isDue, List.any_eq_true, decide_eq_true_eq]
          exact ⟨x, hx, hdue⟩
        simp [ready, hphase, this]

theorem isSome_wake?_iff : t.wake?.isSome ↔ t.outcome? = none := by
  unfold wake? outcome?
  cases t.phase <;> simp

theorem rank_start_lt (s : Setup) (now : Instant) :
    (s.start now).rank < stepsWithin s.behaviour := by
  have hsum := foldl_add_eq_sum (fun ttl => (s.behaviour.write ttl).reactions.length)
    (List.range 256) 0
  have hall : s.behaviour.reactionsFrom 0 =
      ((List.range 256).map fun ttl => (s.behaviour.write ttl).reactions.length).sum := by
    rw [Behaviour.reactionsFrom, List.range_eq_range']
  have hagenda : (s.start now).connection.agenda.length = s.behaviour.script.length := by
    change (Agenda.scheduleAll now s.behaviour.script []).length = _
    rw [Agenda.length_scheduleAll]
    simp
  have hrank : (s.start now).rank =
      256 * Phase.perTtl + s.behaviour.reactionsFrom 0
        + (s.start now).connection.agenda.length + 1 := rfl
  rw [hrank, hagenda, hall]
  simp only [stepsWithin, hsum, Phase.perTtl]
  omega

end Trace

namespace Fleet

def rank (f : Fleet) : Nat := (f.traces.map Trace.rank).sum

/-- Each turn may be followed by one move of the clock. -/
def potential (f : Fleet) : Nat := 2 * f.rank + if f.choice?.isSome then 0 else 1

theorem rank_act_lt {f : Fleet} (h : f.Valid) {i : Nat} (hready : f.isReady i) :
    (f.act i).rank < f.rank := by
  unfold isReady at hready
  cases hget : f.traces[i]? with
  | none => simp [hget] at hready
  | some t =>
      simp only [hget] at hready
      have hlt := Trace.rank_step_lt (h.traces t (List.mem_of_getElem? hget)) hready
      have hsplit : ∀ u : Trace, ((f.traces.set i u).map Trace.rank).sum + t.rank =
          f.rank + u.rank := by
        intro u
        obtain ⟨hi, hti⟩ := List.getElem?_eq_some_iff.mp hget
        rw [rank, List.set_eq_take_append_cons_drop, if_pos hi]
        conv_rhs => rw [← List.take_append_drop i f.traces, List.drop_eq_getElem_cons hi, hti]
        simp only [List.map_append, List.map_cons, List.sum_append, List.sum_cons]
        omega
      have hact : (f.act i).rank =
          ((f.traces.set i (t.step f.now f.engine).1).map Trace.rank).sum := by
        simp [act, hget, rank]
      have := hsplit (t.step f.now f.engine).1
      omega

theorem exists_isReady_wait {f : Fleet} {m : Instant} (h : f.wake? = some m) :
    ∃ i, isReady { f with now := max f.now m, next := 0 } i := by
  obtain ⟨t, ht, hwake⟩ := List.mem_filterMap.mp (List.min?_mem h)
  obtain ⟨i, hi, rfl⟩ := List.getElem_of_mem ht
  refine ⟨i, ?_⟩
  simp only [isReady, List.getElem?_eq_getElem hi]
  exact Trace.ready_of_wake? hwake (Nat.le_max_right _ _)

theorem potential_lt_of_step {f g : Fleet} (h : f.Valid) (hs : Step f g) :
    g.potential < f.potential := by
  cases hs with
  | @act i hready =>
      have hlt := rank_act_lt h hready
      simp only [potential]
      split <;> split <;> omega
  | @wait m hidle hw =>
      obtain ⟨i, hi⟩ := exists_isReady_wait hw
      have hsome : (choice? { f with now := max f.now m, next := 0 }).isSome := by
        cases hc : choice? { f with now := max f.now m, next := 0 } with
        | some j => rfl
        | none => simp [not_isReady_of_choice? hc i] at hi
      have hnone : f.choice?.isSome = false := by
        cases hc : f.choice? with
        | none => rfl
        | some j =>
            have hready := isReady_of_choice? hc
            simp [hidle j] at hready
      simp only [potential, hsome, hnone, if_true, rank]
      simp

theorem step_of_open {f : Fleet} (hopen : f.isFinished = false) : Step f f.step := by
  unfold step
  cases hc : f.choice? with
  | some i => exact .act (isReady_of_choice? hc)
  | none =>
      cases hw : f.wake? with
      | some m => exact .wait (not_isReady_of_choice? hc) hw
      | none =>
          have hall : f.isFinished = true := by
            simp only [isFinished, List.all_eq_true]
            intro t ht
            cases hout : t.outcome? with
            | some outcome => rfl
            | none =>
                obtain ⟨m, hm⟩ := Option.isSome_iff_exists.mp (Trace.isSome_wake?_iff.mpr hout)
                have hmem : m ∈ f.traces.filterMap Trace.wake? := List.mem_filterMap.mpr ⟨t, ht, hm⟩
                rw [wake?, List.min?_eq_none_iff] at hw
                simp [hw] at hmem
          simp [hall] at hopen

theorem potential_step_lt {f : Fleet} (h : f.Valid) (hopen : f.isFinished = false) :
    f.step.potential < f.potential := potential_lt_of_step h (step_of_open hopen)

theorem Valid.halts {f : Fleet} (h : f.Valid) : Acc (fun g f => Step f g) f := by
  induction hn : f.potential using Nat.strong_induction_on generalizing f with
  | _ n ih =>
      refine ⟨_, fun g hs => ?_⟩
      have hlt := potential_lt_of_step h hs
      exact ih g.potential (hn ▸ hlt) (h.step hs).1 rfl

theorem isFinished_of_halted {f : Fleet} (h : ∀ g, ¬ Step f g) : f.isFinished := by
  by_contra hopen
  exact h _ (step_of_open (Bool.eq_false_iff.mpr hopen))

theorem isFinished_runFor {n : Nat} {f : Fleet} (h : f.Valid) (hn : f.potential ≤ n) :
    (runFor n f).isFinished := by
  induction n generalizing f with
  | zero =>
      by_contra hopen
      have := potential_step_lt h (by simpa [runFor] using hopen)
      omega
  | succ n ih =>
      simp only [runFor]
      split
      · assumption
      · rename_i hopen
        have hlt := potential_step_lt h (by simpa using hopen)
        exact ih (h.reaches (reaches_step f)).1 (by omega)

theorem isFinished_run {f : Fleet} (h : f.Valid)
    (hfit : ∀ t ∈ f.traces, t.rank < Trace.stepsWithin t.connection.behaviour) :
    f.run.isFinished := by
  have hsum : ∀ traces : List Trace,
      (∀ t ∈ traces, t.rank < Trace.stepsWithin t.connection.behaviour) →
      (traces.map Trace.rank).sum + traces.length ≤
        (traces.map fun t => Trace.stepsWithin t.connection.behaviour).sum := by
    intro traces
    induction traces with
    | nil => simp
    | cons t rest ih =>
        intro hall
        have hfirst := hall t (by simp)
        have hrest := ih fun u hu => hall u (List.mem_cons_of_mem _ hu)
        simp only [List.map_cons, List.sum_cons, List.length_cons]
        omega
  have hle := hsum f.traces hfit
  by_cases hnone : f.traces = []
  · have hsteps : f.stepsWithin = 0 := by simp [stepsWithin, hnone]
    rw [run, hsteps, runFor, isFinished, hnone]
    rfl
  · have hpos := List.length_pos_of_ne_nil hnone
    refine isFinished_runFor h ?_
    have hsteps := foldl_add_eq_sum (fun t : Trace => Trace.stepsWithin t.connection.behaviour)
      f.traces 0
    simp only [potential, rank, stepsWithin, hsteps]
    split <;> omega

theorem Valid.run {f : Fleet} (h : f.Valid) :
    f.run.Valid ∧ f.run.engine.config = f.engine.config :=
  h.reaches (reaches_run f)

theorem exists_outcome {f : Fleet} (h : f.isFinished) {t : Trace} (ht : t ∈ f.traces) :
    ∃ outcome, t.outcome? = some outcome :=
  Option.isSome_iff_exists.mp (List.all_eq_true.mp h t ht)

end Fleet

theorem Engine.isFinished_run (e : Engine) (history : List Registry.Operation) (now : Instant)
    (setups : List Trace.Setup) : ((e.withHistory history).fleet now setups).run.isFinished := by
  refine Fleet.isFinished_run (e.valid_fleet history now setups) ?_
  intro t ht
  obtain ⟨s, -, rfl⟩ := List.mem_map.mp ht
  exact Trace.rank_start_lt s now

theorem Engine.finished_of_run (e : Engine) (history : List Registry.Operation) {now : Instant}
    {s : Trace.Setup} {t : Trace}
    (ht : ((e.withHistory history).fleet now [s]).run.traces = [t]) :
    ∃ outcome at_, t.phase = .finished outcome at_ := by
  obtain ⟨outcome, hout⟩ := Fleet.exists_outcome (e.isFinished_run history now [s])
    (ht ▸ List.mem_singleton_self t)
  unfold Trace.outcome? at hout
  split at hout
  · rename_i o at_ hphase
    exact ⟨o, at_, hphase⟩
  · cases hout

end InbandTrace
