import InbandTrace.Proofs.Engine.Lapse

namespace InbandTrace

namespace Agenda

/-- Beside the first events the registry is swept now and then, with the true time. -/
inductive Swept : List (Nat × Event) → List (Nat × Event) → Prop where
  | nil : Swept [] []
  | keep (x : Nat × Event) {xs ys : List (Nat × Event)} (h : Swept xs ys) :
      Swept (x :: xs) (x :: ys)
  | sweep (due : Nat) {xs ys : List (Nat × Event)} (h : Swept xs ys) :
      Swept xs ((due, .reap 0) :: ys)

namespace Swept

variable {xs ys : Agenda}

theorem sublist (h : Swept xs ys) : xs.Sublist ys := by
  induction h with
  | nil => exact .slnil
  | keep x h ih => exact ih.cons_cons x
  | sweep due h ih => exact ih.cons _

theorem schedule (h : Swept xs ys) (hord : Ordered ys) (due : Instant) (e : Event) :
    Swept (xs.schedule due e) (ys.schedule due e) := by
  induction h with
  | nil => exact .keep _ .nil
  | @keep x xs ys h ih =>
      simp only [Agenda.schedule]
      split
      · exact .keep x (ih (List.pairwise_cons.mp hord).2)
      · exact .keep _ (.keep x h)
  | @sweep first xs ys h ih =>
      obtain ⟨hfirst, hrest⟩ := List.pairwise_cons.mp hord
      simp only [Agenda.schedule]
      split
      · exact .sweep first (ih hrest)
      · rename_i hlate
        rw [schedule_of_lt]
        · exact .keep _ (.sweep first h)
        · intro x hx
          exact Nat.lt_of_lt_of_le (Nat.lt_of_not_le hlate) (hfirst x (h.sublist.subset hx))

theorem schedule_reap (h : Swept xs ys) (due : Instant) :
    Swept xs (ys.schedule due (.reap 0)) := by
  induction h with
  | nil => exact .sweep due .nil
  | keep x h ih =>
      simp only [Agenda.schedule]
      split
      · exact .keep x ih
      · exact .sweep due (.keep x h)
  | sweep first h ih =>
      simp only [Agenda.schedule]
      split
      · exact .sweep first ih
      · exact .sweep due (.sweep first h)

theorem scheduleAll {events events' : List (Span × Event)} (he : Swept events events')
    (h : Swept xs ys) (hord : Ordered ys) (start : Instant) :
    Swept (xs.scheduleAll start events) (ys.scheduleAll start events') := by
  induction he generalizing xs ys with
  | nil => exact h
  | keep x he ih => exact ih (h.schedule hord _ _) (hord.schedule _ _)
  | sweep due he ih => exact ih (h.schedule_reap _) (hord.schedule _ _)

theorem foldl_min_le (h : Swept xs ys) (n : Instant) :
    ys.foldl (fun n x => min n x.1) n ≤ xs.foldl (fun n x => min n x.1) n := by
  induction h generalizing n with
  | nil => exact Nat.le_refl n
  | keep x h ih => exact ih _
  | @sweep due xs ys h ih =>
      exact Nat.le_trans (foldl_min_mono (Nat.min_le_left n due) ys) (ih n)

end Swept

end Agenda

structure Behaviour.Swept (b b' : Behaviour) : Prop where
  same : b' = { b with
    script := b'.script
    write := fun ttl => { b.write ttl with reactions := (b'.write ttl).reactions } }
  script : Agenda.Swept b.script b'.script
  prompted : ∀ p, Agenda.Swept (b.prompted p) (b'.prompted p)

/-- In what a connection differs from another on which nothing is swept. -/
structure Guise where
  script : List (Span × Event)
  reactions : (ttl : Nat) → List (Span × (List UInt8 → Event))
  agenda : Agenda
  captures : List (Instant × Capture)

def Guise.behaviour (g : Guise) (b : Behaviour) : Behaviour :=
  { b with
    script := g.script
    write := fun ttl => { b.write ttl with reactions := g.reactions ttl } }

namespace Connection

def guise (c : Connection) (g : Guise) : Connection :=
  { c with
    behaviour := g.behaviour c.behaviour
    agenda := g.agenda
    captures := g.captures }

/-- All that the guise adds are sweeps, those under way and those that pings bring about. -/
structure Fits (c : Connection) (g : Guise) : Prop where
  agenda : Agenda.Swept c.agenda g.agenda
  ordered : g.agenda.Ordered
  prompted : ∀ p, Agenda.Swept (c.behaviour.prompted p) ((g.behaviour c.behaviour).prompted p)

theorem start_guise {b b' : Behaviour} (h : b.Swept b') (now : Instant) :
    ∃ g, start b' now = (start b now).guise g ∧ (start b now).Fits g := by
  have hord : Agenda.Ordered [] := List.Pairwise.nil
  let g : Guise := ⟨b'.script, fun ttl => (b'.write ttl).reactions,
    Agenda.scheduleAll now b'.script [], []⟩
  have hsame : b' = g.behaviour b := h.same
  refine ⟨g, ?_, h.script.scheduleAll .nil hord now, hord.scheduleAll _ _, ?_⟩
  · rw [hsame]
    rfl
  · intro p
    exact hsame ▸ h.prompted p

variable {c : Connection} {g : Guise}

theorem isDue_guise (h : c.Fits g) {now : Instant} (hdue : c.isDue now) : (c.guise g).isDue now := by
  obtain ⟨x, hx, hnow⟩ := List.any_eq_true.mp hdue
  exact List.any_eq_true.mpr ⟨x, h.agenda.sublist.subset hx, hnow⟩

theorem setTtl_guise (c : Connection) (g : Guise) (ttl : Nat) :
    (c.guise g).setTtl ttl = ((c.setTtl ttl).1, (c.setTtl ttl).2.guise g) := by
  have hset : (c.guise g).behaviour.setTtl (c.guise g).ttlCalls ttl =
      c.behaviour.setTtl c.ttlCalls ttl := rfl
  simp only [setTtl, hset]
  cases c.behaviour.setTtl c.ttlCalls ttl <;> rfl

theorem setTtl_fits (h : c.Fits g) (ttl : Nat) : (c.setTtl ttl).2.Fits g := by
  unfold setTtl
  split <;> exact ⟨h.agenda, h.ordered, h.prompted⟩

theorem ping_guise (h : c.Fits g) (now : Instant) (payload : List UInt8) :
    ∃ g', (c.guise g).ping now payload = (c.ping now payload).guise g' ∧
      (c.ping now payload).Fits g' := by
  let events := (g.behaviour c.behaviour).prompted ⟨now, c.ttl, payload⟩
  refine ⟨{ g with agenda := g.agenda.scheduleAll now events }, rfl, ?_, ?_, h.prompted⟩
  · exact (h.prompted ⟨now, c.ttl, payload⟩).scheduleAll h.agenda h.ordered now
  · exact h.ordered.scheduleAll now events

end Connection

end InbandTrace
