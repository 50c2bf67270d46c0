import InbandTrace.Trace.Basic
/-!
Traces side by side on one engine. At each time they act in the order of the list, until none has
anything left to do; then the clock moves on.
-/

namespace InbandTrace

structure Fleet where
  now : Instant
  engine : Engine
  traces : List Trace
  next : Nat := 0

namespace Fleet

def isReady (f : Fleet) (i : Nat) : Bool :=
  match f.traces[i]? with
  | some t => t.ready f.now f.engine
  | none => false

/-- The trace that acts: the first that is ready from the next one on, or else from the start. -/
def choice? (f : Fleet) : Option Nat :=
  let ready := (List.range f.traces.length).filter f.isReady
  (ready.find? fun i => f.next ≤ i).or ready.head?

def act (f : Fleet) (i : Nat) : Fleet :=
  match f.traces[i]? with
  | none => f
  | some t =>
      let (u, e) := t.step f.now f.engine
      { f with
        engine := e
        traces := f.traces.set i u
        next := if Trace.rests t.phase u.phase f.now then i + 1 else i }

def wake? (f : Fleet) : Option Instant := (f.traces.filterMap Trace.wake?).min?

def step (f : Fleet) : Fleet :=
  match f.choice? with
  | some i => f.act i
  | none =>
      match f.wake? with
      | some t => { f with now := max f.now t, next := 0 }
      | none => f

/-- A step under some scheduler: any trace that is ready acts, and the clock moves only when none
is. -/
inductive Step : Fleet → Fleet → Prop where
  | act {f : Fleet} {i : Nat} (h : f.isReady i) : Step f (f.act i)
  | wait {f : Fleet} {t : Instant} (h : ∀ i, f.isReady i = false) (hw : f.wake? = some t) :
      Step f { f with now := max f.now t, next := 0 }

theorem isReady_of_choice? {f : Fleet} {i : Nat} (h : f.choice? = some i) : f.isReady i := by
  simp only [choice?, Option.or_eq_some_iff] at h
  rcases h with h | ⟨_, h⟩
  · have := List.mem_of_find?_eq_some h
    simp_all
  · have := List.mem_of_mem_head? h
    simp_all

theorem not_isReady_of_choice? {f : Fleet} (h : f.choice? = none) (i : Nat) :
    f.isReady i = false := by
  simp only [choice?, Option.or_eq_none_iff, List.head?_eq_none_iff, List.filter_eq_nil_iff] at h
  by_cases hi : i < f.traces.length
  · simpa using h.2 i (by simpa using hi)
  · simp [isReady, List.getElem?_eq_none (Nat.le_of_not_lt hi)]

theorem step_of_ne {f : Fleet} (h : f.step ≠ f) : Step f f.step := by
  unfold step at h ⊢
  cases hc : f.choice? with
  | some i => exact .act (isReady_of_choice? hc)
  | none =>
      cases hw : f.wake? with
      | some t => exact .wait (not_isReady_of_choice? hc) hw
      | none => simp [hc, hw] at h

def isFinished (f : Fleet) : Bool := f.traces.all fun t => t.outcome?.isSome

def runFor : Nat → Fleet → Fleet
  | 0, f => f
  | n + 1, f => if f.isFinished then f else runFor n f.step

def stepsWithin (f : Fleet) : Nat :=
  2 * f.traces.foldl (fun n t => n + Trace.stepsWithin t.connection.behaviour) 0

def run (f : Fleet) : Fleet := runFor f.stepsWithin f

end Fleet

def Engine.run (e : Engine) (now : Instant) (traces : List Trace) : Fleet :=
  Fleet.run ⟨now, e, traces, 0⟩

end InbandTrace
