import InbandTrace.Proofs.Engine.Lapse
import InbandTrace.Trace.Basic
import Mathlib.Data.Nat.Find
import Mathlib.Logic.Function.Iterate

namespace InbandTrace

namespace World

theorem queries_happen (w : World) (due : Instant) (e : Event) :
    (w.happen due e).connection.queries = w.connection.queries := by
  cases e <;> rfl

theorem queries_settleAgenda (agenda : Agenda) (w : World) :
    (settleAgenda agenda w).connection.queries = w.connection.queries := by
  induction agenda generalizing w with
  | nil => rfl
  | cons x rest ih =>
      simp only [settleAgenda]
      split
      · rw [ih, queries_happen]
      · rfl

theorem queries_statistics (w : World) :
    w.statistics.2.connection.queries = w.connection.queries + 1 :=
  congrArg (· + 1) (queries_settleAgenda _ w)

def till (w : World) (t : Instant) : World := { w with now := t }

theorem Lapse.later {w w' w'' : World} {s t : Instant}
    (h : Lapse (w.till s).dueEvents (w.till s) w')
    (h' : Lapse (w'.till t).dueEvents (w'.till t) w'') (hst : s ≤ t) :
    Lapse (w.till t).dueEvents (w.till t) w'' := by
  have hdue : ∀ x ∈ (w.till s).dueEvents, x.1 ≤ t := fun x hx => (h.due x hx).trans hst
  have honward : Lapse (w.till s).dueEvents (w.till t) (w'.till t) :=
    ⟨rfl, h.config, h.wire, h.agenda, hdue, h.registry, h.inbox⟩
  have hevents : (w.till t).dueEvents = (w.till s).dueEvents ++ (w'.till t).dueEvents := by
    have hagenda : w.connection.agenda = (w.till s).dueEvents ++ w'.connection.agenda := h.agenda
    rw [dueEvents, till, hagenda]
    exact List.takeWhile_append_of_pos fun x hx => decide_eq_true (hdue x hx)
  rw [hevents]
  exact honward.trans h'

def lookOn (w : World) : World := w.statistics.2.till (w.statistics.2.now + Settle.interval)

def polled (w : World) (k : Nat) : World := lookOn^[k] w

theorem polled_succ (w : World) (k : Nat) : w.polled (k + 1) = w.lookOn.polled k :=
  Function.iterate_succ_apply ..

theorem polled_succ' (w : World) (k : Nat) : w.polled (k + 1) = (w.polled k).lookOn :=
  Function.iterate_succ_apply' ..

/-- What a look leaves after so many others: events have happened that came due meanwhile, as they
would have without it, and the statistics have been asked for. -/
structure Looked (k : Nat) (w w' : World) : Prop where
  now : w'.now = w.now + Span.ofMillis (5 * k)
  queries : w'.connection.queries = w.connection.queries + k + 1
  lapse : Lapse (w.till w'.now).dueEvents (w.till w'.now) w'

theorem looked (w : World) (k : Nat) : Looked k w (w.polled k).statistics.2 := by
  induction k with
  | zero =>
      have hlapse := w.lapse_statistics
      exact ⟨hlapse.now, queries_statistics w, hlapse.now ▸ hlapse⟩
  | succ k ih =>
      have hlapse := (w.polled (k + 1)).lapse_statistics
      have hqueries := (w.polled (k + 1)).queries_statistics
      rw [polled_succ'] at hlapse hqueries ⊢
      have hnow : (w.polled k).lookOn.statistics.2.now = w.now + Span.ofMillis (5 * (k + 1)) := by
        have hpassed : (w.polled k).lookOn.now = w.now + Span.ofMillis (5 * k) + Settle.interval :=
          congrArg (· + Settle.interval) ih.now
        rw [hlapse.now, hpassed, Nat.add_assoc, Nat.mul_succ]
        exact congrArg (w.now + ·) (Nat.add_mul ..).symm
      refine ⟨hnow, hqueries.trans (congrArg (· + 1) ih.queries), ?_⟩
      rw [hlapse.now]
      exact ih.lapse.later hlapse (Nat.le_add_right _ _)

theorem now_polled (w : World) (k : Nat) : (w.polled k).now = w.now + Span.ofMillis (5 * k) :=
  (w.polled k).lapse_statistics.now.symm.trans (w.looked k).now

end World

namespace Settle

open World

theorem settleBy_eq {giveUp : Instant} {w : World} {k more : Nat} (hk : k ≤ more)
    (hbefore : ∀ j < k, quiet (w.polled j).statistics.1 = false ∧ (w.polled j).now < giveUp)
    (hend : quiet (w.polled k).statistics.1 = true ∨ giveUp ≤ (w.polled k).now) :
    settleBy giveUp more w = (quiet (w.polled k).statistics.1, (w.polled k).statistics.2) := by
  induction k generalizing w more with
  | zero =>
      have hnow := w.lapse_statistics.now
      unfold settleBy
      simp only [hnow]
      cases hquiet : quiet w.statistics.1 with
      | true => simp [polled, hquiet]
      | false =>
          have hlate : giveUp ≤ w.now := hend.resolve_left (by simp [polled, hquiet])
          simp [polled, hquiet, hlate]
  | succ k ih =>
      have hnow := w.lapse_statistics.now
      obtain ⟨hloud, hearly⟩ := hbefore 0 (Nat.succ_pos k)
      cases more with
      | zero => exact absurd hk (Nat.not_succ_le_zero k)
      | succ more =>
          rw [polled_succ] at hend ⊢
          rw [← ih (Nat.le_of_succ_le_succ hk) (fun j hj => ?_) hend]
          · change quiet w.statistics.1 = false at hloud
            change w.now < giveUp at hearly
            rw [settleBy]
            simp only [hloud, Bool.false_eq_true, if_false, hnow, if_neg (Nat.not_le.mpr hearly)]
            rw [lookOn, till, hnow]
          · rw [← polled_succ]
            exact hbefore (j + 1) (Nat.succ_lt_succ hj)

end Settle

namespace World

theorem exists_last_look (w : World) : ∃ k ≤ 600,
    (∀ j < k, Settle.quiet (w.polled j).statistics.1 = false) ∧
      (Settle.quiet (w.polled k).statistics.1 = true ∨ k = 600) := by
  have h : ∃ k, Settle.quiet (w.polled k).statistics.1 = true ∨ k = 600 := ⟨600, .inr rfl⟩
  refine ⟨Nat.find h, Nat.find_min' h (.inr rfl), fun j hj => ?_, Nat.find_spec h⟩
  simpa using (not_or.mp (Nat.find_min h hj)).1

theorem settleBy_of_polled {w : World} {k more : Nat} (hk : k ≤ 600) (hmore : 600 ≤ more)
    (hbefore : ∀ j < k, Settle.quiet (w.polled j).statistics.1 = false)
    (hend : Settle.quiet (w.polled k).statistics.1 = true ∨ k = 600) :
    Settle.settleBy (w.now + Settle.patience) more w =
      (Settle.quiet (w.polled k).statistics.1, (w.polled k).statistics.2) := by
  refine Settle.settleBy_eq (hk.trans hmore) (fun j hj => ⟨hbefore j hj, ?_⟩) (hend.imp_right ?_)
  · rw [now_polled]
    have hearly : 5 * j < 3000 := by omega
    exact Nat.add_lt_add_left (Nat.mul_lt_mul_of_pos_right hearly (by decide)) _
  · rintro rfl
    rw [now_polled]
    exact Nat.le_refl _

def answering (answers : Nat → Except Fault TcpInfo) : World where
  now := 0
  engine := { config := .default, wallClock := fun _ => ⟨0, 0⟩ }
  connection := .start
    { localAddress := .error ⟨"closed"⟩
      peerAddress := fun _ => .error ⟨"closed"⟩
      counted := fun n info => (answers n).toOption.getD info
      statisticsFault := fun n => match answers n with
        | .ok _ => none
        | .error fault => some fault } 0

theorem answer_of_answering (answers : Nat → Except Fault TcpInfo) (k : Nat) :
    ((answering answers).polled k).statistics.1 = answers k := by
  have hpolled : ∃ t counters, (answering answers).polled k =
      { answering answers with
        now := t
        connection :=
          { (answering answers).connection with counters := counters, queries := k } } := by
    induction k with
    | zero => exact ⟨_, _, rfl⟩
    | succ k ih =>
        obtain ⟨t, counters, hk⟩ := ih
        rw [polled_succ', hk]
        exact ⟨_, _, rfl⟩
  obtain ⟨t, counters, hk⟩ := hpolled
  rw [hk]
  cases h : answers k with
  | ok info =>
      simp [statistics, query, catchUp, settleAgenda, answering, Connection.start, Connection.query,
        Agenda.scheduleAll, h, Except.toOption]
  | error fault =>
      simp [statistics, query, catchUp, settleAgenda, answering, Connection.start, Connection.query,
        Agenda.scheduleAll, h]

/-- A trace that settles looks at the same times, and sends its probe when the wait is over. -/
theorem probeWhenQuiet_polled {w : World} {k : Nat} (hk : k ≤ 600)
    (hbefore : ∀ j < k, Settle.quiet (w.polled j).statistics.1 = false) (sweep : Sweep) :
    (w.polled k).probeWhenQuiet sweep (w.now + Settle.patience) =
      if Settle.quiet (w.polled k).statistics.1 = true ∨ k = 600 then w.settle.2.probe sweep
      else (.settling sweep (w.now + Settle.patience) (w.polled (k + 1)).now,
        (w.polled k).statistics.2) := by
  have hnow : (w.polled k).statistics.2.now = w.now + Span.ofMillis (5 * k) := (w.looked k).now
  have hlate : w.now + Settle.patience ≤ (w.polled k).statistics.2.now ↔ k = 600 := by
    rw [hnow, Settle.patience, Nat.add_le_add_iff_left, Span.ofMillis, Span.ofMillis,
      Nat.mul_le_mul_right_iff (by decide)]
    omega
  simp only [probeWhenQuiet, hlate, Bool.or_eq_true, decide_eq_true_eq]
  split
  · rename_i hend
    have hsettle : w.settle = (Settle.quiet (w.polled k).statistics.1, (w.polled k).statistics.2) :=
      settleBy_of_polled hk (Nat.le_refl 600) hbefore hend
    rw [hsettle]
  · rw [polled_succ']
    rfl

/-- A wait ends at the first look that finds nothing on the way, or else at the last one, after
three seconds. It does nothing itself to the registry or to the connection. -/
theorem settle_of_polled (w : World) :
    let answer := fun k => (w.polled k).statistics.1
    let quietAt := fun k => (∃ fault, answer k = .error fault) ∨
      ∃ info, answer k = .ok info ∧ info.unacknowledged = 0
    (∀ k, (w.polled k).now = w.now + Span.ofMillis (5 * k)) ∧
    (∃ k ≤ 600, (∀ j < k, ¬ quietAt j) ∧ (quietAt k ∨ k = 600) ∧
      (w.settle.1 = true ↔ quietAt k) ∧ w.settle.2 = (w.polled k).statistics.2 ∧
      let w' := w.settle.2
      w'.now = w.now + Span.ofMillis (5 * k) ∧
        w'.connection.queries = w.connection.queries + (k + 1) ∧
        w'.connection.ttl = w.connection.ttl ∧ w'.connection.ttlCalls = w.connection.ttlCalls ∧
        w'.engine.registry = w.engine.registry.after (w.till w'.now).dueEvents.operations) ∧
    (∀ more ≥ 600, Settle.settleBy (w.now + Settle.patience) more w = w.settle) ∧
    ∀ answers : Nat → Except Fault TcpInfo,
      ∃ w' : World, ∀ k, (w'.polled k).statistics.1 = answers k := by
  intro answer quietAt
  have hquiet : ∀ k, quietAt k ↔ Settle.quiet (answer k) = true := fun _ => Settle.quiet_iff.symm
  obtain ⟨k, hk, hbefore, hend⟩ := w.exists_last_look
  have hsettle : w.settle = (Settle.quiet (answer k), (w.polled k).statistics.2) :=
    settleBy_of_polled hk (Nat.le_refl 600) hbefore hend
  have hlooked := w.looked k
  refine ⟨w.now_polled, ⟨k, hk, fun j hj => ?_, hend.imp_left (hquiet k).mpr, ?_, ?_, ?_⟩,
    fun more hmore => ?_, fun answers => ⟨answering answers, answer_of_answering answers⟩⟩
  · rw [hquiet]
    exact ne_true_of_eq_false (hbefore j hj)
  · rw [hsettle]
    exact (hquiet k).symm
  · rw [hsettle]
  · rw [hsettle]
    exact ⟨hlooked.now, hlooked.queries, hlooked.lapse.ttl, hlooked.lapse.ttlCalls,
      hlooked.lapse.registry⟩
  · rw [hsettle]
    exact settleBy_of_polled hk hmore hbefore hend

end World

end InbandTrace
