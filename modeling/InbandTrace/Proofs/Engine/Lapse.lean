import InbandTrace.Proofs.Engine.Evolution
import Mathlib.Data.List.TakeWhile

namespace InbandTrace

def Event.signal? : Event → Option Signal
  | .pong payload => some (.pong payload)
  | .close => some .closed
  | _ => none

namespace Agenda

def operations (agenda : Agenda) : List Registry.Operation :=
  agenda.filterMap fun x => x.2.operation? x.1

def signals (agenda : Agenda) : List Signal := agenda.filterMap fun x => x.2.signal?

@[simp]
theorem operations_append (xs ys : Agenda) :
    operations (xs ++ ys) = operations xs ++ operations ys := List.filterMap_append

@[simp]
theorem signals_append (xs ys : Agenda) : signals (xs ++ ys) = signals xs ++ signals ys :=
  List.filterMap_append

theorem allowed_operations {es : Agenda} {P : Registry.Operation → Prop}
    (h : ∀ x ∈ es, x.2.Allowed P) : ∀ op ∈ es.operations, P op := by
  intro op hop
  obtain ⟨x, hx, hx'⟩ := List.mem_filterMap.mp hop
  exact h x hx x.1 op hx'

theorem operations_cons (x : Instant × Event) (rest : Agenda) :
    operations (x :: rest) = (x.2.operation? x.1).toList ++ operations rest := by
  cases hop : x.2.operation? x.1 <;> simp [operations, hop]

theorem signals_cons (x : Instant × Event) (rest : Agenda) :
    signals (x :: rest) = x.2.signal?.toList ++ signals rest := by
  cases hs : x.2.signal? <;> simp [signals, hs]

theorem schedule_append {xs : Agenda} {due : Instant} (h : ∀ x ∈ xs, x.1 ≤ due) (e : Event)
    (agenda : Agenda) : schedule due e (xs ++ agenda) = xs ++ schedule due e agenda := by
  induction xs with
  | nil => rfl
  | cons x rest ih =>
      rw [List.cons_append, schedule, if_pos (h x List.mem_cons_self),
        ih fun y hy => h y (List.mem_cons_of_mem _ hy), List.cons_append]

theorem scheduleAll_append {xs : Agenda} {start : Instant} (h : ∀ x ∈ xs, x.1 ≤ start)
    (events : List (Span × Event)) (agenda : Agenda) :
    scheduleAll start events (xs ++ agenda) = xs ++ scheduleAll start events agenda := by
  induction events generalizing agenda with
  | nil => rfl
  | cons e rest ih =>
      have hlate : ∀ x ∈ xs, x.1 ≤ start + e.1 := fun x hx =>
        Nat.le_trans (h x hx) (Nat.le_add_right _ _)
      have hfirst := schedule_append hlate e.2 agenda
      simp only [scheduleAll, List.foldl_cons] at ih ⊢
      rw [hfirst, ih]

end Agenda

namespace Behaviour

def Brings (b : Behaviour) (Q : Event → Prop) : Prop :=
  (∀ x ∈ b.script, Q x.2) ∧ ∀ ttl, ∀ r ∈ (b.write ttl).reactions, ∀ payload, Q (r.2 payload)

def Allows (b : Behaviour) (P : Registry.Operation → Prop) : Prop :=
  (∀ x ∈ b.script, x.2.Allowed P) ∧
    ∀ ttl, ∀ r ∈ (b.write ttl).reactions, ∀ payload, (r.2 payload).Allowed P

def prompted (b : Behaviour) (p : Ping) : List (Span × Event) :=
  (b.write p.ttl).reactions.map fun r => (r.1, r.2 p.payload)

end Behaviour

namespace Connection

/-- All that has ever been put on the agenda, in its order. -/
def program (c : Connection) : Agenda :=
  c.pings.foldr (fun p agenda => agenda.scheduleAll p.sentAt (c.behaviour.prompted p))
    (Agenda.scheduleAll c.openedAt c.behaviour.script [])

def happened (c : Connection) : Agenda := c.program.take (c.program.length - c.agenda.length)

/-- What the peer cannot change. -/
def wire (c : Connection) : Connection :=
  { c with
    agenda := []
    inbox := []
    counters := ⟨0, 0, false⟩
    fault := none
    cancelled := false
    queries := 0
    captures := [] }

theorem program_of_wire {c c' : Connection} (h : c'.wire = c.wire) : c'.program = c.program := by
  have hpings : c'.pings = c.pings := (congrArg Connection.pings h :)
  have hopened : c'.openedAt = c.openedAt := (congrArg Connection.openedAt h :)
  have hbehaviour : c'.behaviour = c.behaviour := (congrArg Connection.behaviour h :)
  rw [program, program, hpings, hopened, hbehaviour]

theorem happened_of_split {c : Connection} {xs : Agenda} (h : c.program = xs ++ c.agenda) :
    c.happened = xs := by
  rw [happened, h, List.length_append, Nat.add_sub_cancel, List.take_left]

/-- What has happened and what is to come make up the program, and what can be read has happened. -/
structure Kept (c : Connection) (now : Instant) : Prop where
  split : c.program = c.happened ++ c.agenda
  past : ∀ x ∈ c.happened, x.1 ≤ now
  heard : ∀ x ∈ c.inbox, x ∈ c.happened.signals

theorem kept_of_split {c : Connection} {now : Instant} {xs : Agenda}
    (h : c.program = xs ++ c.agenda) (hpast : ∀ x ∈ xs, x.1 ≤ now)
    (hheard : ∀ x ∈ c.inbox, x ∈ xs.signals) : c.Kept now ∧ c.happened = xs := by
  have hxs := happened_of_split h
  exact ⟨⟨by rw [hxs, h], by rw [hxs]; exact hpast, by rw [hxs]; exact hheard⟩, hxs⟩

theorem kept_start (b : Behaviour) (now : Instant) :
    (start b now).Kept now ∧ (start b now).happened = [] :=
  kept_of_split (List.nil_append _).symm (by simp) fun _ h => nomatch h

namespace Kept

variable {c : Connection} {now : Instant}

theorem later (h : c.Kept now) {m : Instant} (hm : now ≤ m) : c.Kept m :=
  ⟨h.split, fun x hx => Nat.le_trans (h.past x hx) hm, h.heard⟩

theorem of_same (h : c.Kept now) {c' : Connection} (hp : c'.program = c.program)
    (ha : c'.agenda = c.agenda) (hi : c'.inbox = c.inbox) :
    c'.Kept now ∧ c'.happened = c.happened :=
  kept_of_split (by rw [hp, ha, h.split]) h.past (by rw [hi]; exact h.heard)

theorem ping (h : c.Kept now) (payload : List UInt8) :
    (c.ping now payload).Kept now ∧ (c.ping now payload).happened = c.happened := by
  refine kept_of_split ?_ h.past h.heard
  have hprogram : (c.ping now payload).program =
      c.program.scheduleAll now (c.behaviour.prompted ⟨now, c.ttl, payload⟩) := rfl
  rw [hprogram, h.split, Agenda.scheduleAll_append h.past]
  rfl

theorem setTtl (h : c.Kept now) (ttl : Nat) :
    (c.setTtl ttl).2.Kept now ∧ (c.setTtl ttl).2.happened = c.happened := by
  unfold Connection.setTtl
  split <;> exact h.of_same rfl rfl rfl

end Kept

theorem brings_program {c : Connection} {Q : Event → Prop} (h : c.behaviour.Brings Q) :
    ∀ x ∈ c.program, Q x.2 := by
  have hscript : ∀ x ∈ Agenda.scheduleAll c.openedAt c.behaviour.script [], Q x.2 := by
    intro x hx
    rcases Agenda.mem_scheduleAll.mp hx with ⟨y, hy, rfl⟩ | hnone
    · exact h.1 y hy
    · cases hnone
  unfold program
  induction c.pings with
  | nil => exact hscript
  | cons p rest ih =>
      intro x hx
      rcases Agenda.mem_scheduleAll.mp hx with ⟨y, hy, rfl⟩ | hold
      · obtain ⟨r, hr, rfl⟩ := List.mem_map.mp hy
        exact h.2 _ r hr _
      · exact ih x hold

theorem Kept.brings {c : Connection} {now : Instant} (h : c.Kept now) {Q : Event → Prop}
    (hb : c.behaviour.Brings Q) : ∀ x ∈ c.happened, Q x.2 := by
  intro x hx
  refine brings_program hb x ?_
  rw [h.split]
  exact List.mem_append_left _ hx

theorem Kept.allowed {c : Connection} {now : Instant} (h : c.Kept now)
    {P : Registry.Operation → Prop} (ha : c.behaviour.Allows P) :
    ∀ op ∈ c.happened.operations, P op := Agenda.allowed_operations (h.brings ha)

end Connection

namespace World

def dueEvents (w : World) : Agenda := w.connection.agenda.takeWhile fun e => decide (e.1 ≤ w.now)

/-- Some events have happened, and nothing else that can be seen from outside. -/
structure Lapse (es : Agenda) (w w' : World) : Prop where
  now : w'.now = w.now
  config : w'.engine.config = w.engine.config
  wire : w'.connection.wire = w.connection.wire
  agenda : w.connection.agenda = es ++ w'.connection.agenda
  due : ∀ x ∈ es, x.1 ≤ w.now
  registry : w'.engine.registry = w.engine.registry.after es.operations
  inbox : ∀ s ∈ w'.connection.inbox, s ∈ w.connection.inbox ∨ s ∈ es.signals

namespace Lapse

variable {es : Agenda} {w w' : World}

theorem refl (w : World) : Lapse [] w w := ⟨rfl, rfl, rfl, rfl, by simp, rfl, fun _ => .inl⟩

theorem trans {xs ys : Agenda} {a b c : World} (h : Lapse xs a b) (h' : Lapse ys b c) :
    Lapse (xs ++ ys) a c := by
  refine ⟨h'.now.trans h.now, h'.config.trans h.config, h'.wire.trans h.wire, ?_, ?_, ?_, ?_⟩
  · rw [h.agenda, h'.agenda, List.append_assoc]
  · intro x hx
    rcases List.mem_append.mp hx with hx | hx
    · exact h.due x hx
    · exact h.now ▸ h'.due x hx
  · rw [h'.registry, h.registry, Agenda.operations_append, Registry.after_append]
  · intro s hs
    rw [Agenda.signals_append, List.mem_append]
    rcases h'.inbox s hs with hs | hs
    · exact (h.inbox s hs).imp_right .inl
    · exact .inr (.inr hs)

theorem behaviour (h : Lapse es w w') : w'.connection.behaviour = w.connection.behaviour :=
  (congrArg Connection.behaviour h.wire :)

theorem pings (h : Lapse es w w') : w'.connection.pings = w.connection.pings :=
  (congrArg Connection.pings h.wire :)

theorem ttl (h : Lapse es w w') : w'.connection.ttl = w.connection.ttl :=
  (congrArg Connection.ttl h.wire :)

theorem ttlCalls (h : Lapse es w w') : w'.connection.ttlCalls = w.connection.ttlCalls :=
  (congrArg Connection.ttlCalls h.wire :)

theorem kept (h : Lapse es w w') (hk : w.connection.Kept w.now) :
    w'.connection.Kept w.now ∧ w'.connection.happened = w.connection.happened ++ es := by
  refine Connection.kept_of_split ?_ ?_ ?_
  · rw [Connection.program_of_wire h.wire, hk.split, h.agenda, List.append_assoc]
  · intro x hx
    rcases List.mem_append.mp hx with hx | hx
    · exact hk.past x hx
    · exact h.due x hx
  · intro x hx
    rw [Agenda.signals_append, List.mem_append]
    exact (h.inbox x hx).imp_left (hk.heard x)

end Lapse

theorem registry_settleAgenda (agenda : Agenda) (w : World) :
    (settleAgenda agenda w).engine.registry = w.engine.registry.after
      (Agenda.operations (agenda.takeWhile fun e => decide (e.1 ≤ w.now))) := by
  induction agenda generalizing w with
  | nil => rfl
  | cons x rest ih =>
      obtain ⟨due, e⟩ := x
      simp only [settleAgenda]
      split
      · rename_i h
        rw [ih, now_happen, registry_happen, List.takeWhile_cons_of_pos (by simpa using h),
          Agenda.operations_cons, Registry.after_append]
      · rename_i h
        rw [List.takeWhile_cons_of_neg (by simpa using h)]
        rfl

theorem inbox_happen (w : World) (due : Instant) (e : Event) :
    (w.happen due e).connection.inbox = w.connection.inbox ++ e.signal?.toList := by
  cases e <;> first | rfl | exact (List.append_nil _).symm

theorem inbox_settleAgenda (agenda : Agenda) (w : World) :
    (settleAgenda agenda w).connection.inbox = w.connection.inbox ++
      Agenda.signals (agenda.takeWhile fun e => decide (e.1 ≤ w.now)) := by
  induction agenda generalizing w with
  | nil => exact (List.append_nil _).symm
  | cons x rest ih =>
      obtain ⟨due, e⟩ := x
      simp only [settleAgenda]
      split
      · rename_i h
        rw [ih, now_happen, inbox_happen, List.takeWhile_cons_of_pos (by simpa using h),
          Agenda.signals_cons, List.append_assoc]
      · rename_i h
        rw [List.takeWhile_cons_of_neg (by simpa using h)]
        exact (List.append_nil _).symm

theorem wire_happen (w : World) (due : Instant) (e : Event) :
    (w.happen due e).connection.wire = w.connection.wire := by
  cases e <;> rfl

theorem wire_settleAgenda (agenda : Agenda) (w : World) :
    (settleAgenda agenda w).connection.wire = w.connection.wire := by
  induction agenda generalizing w with
  | nil => rfl
  | cons x rest ih =>
      simp only [settleAgenda]
      split
      · rw [ih, wire_happen]
      · rfl

theorem lapse_catchUp (w : World) : Lapse w.dueEvents w w.catchUp := by
  have hev := w.evolves_catchUp w.allowed_true
  refine ⟨hev.now, hev.config, wire_settleAgenda _ _, ?_, ?_, registry_settleAgenda _ _, ?_⟩
  · rw [agenda_catchUp]
    exact (List.takeWhile_append_dropWhile ..).symm
  · intro x hx
    have hdue := List.mem_takeWhile_imp hx
    exact of_decide_eq_true hdue
  · intro s hs
    rw [catchUp, inbox_settleAgenda] at hs
    exact List.mem_append.mp hs

theorem lapse_query (w : World) : Lapse [] w w.query.2 :=
  ⟨rfl, rfl, rfl, rfl, by simp, rfl, fun _ => .inl⟩

theorem lapse_statistics (w : World) : Lapse w.dueEvents w w.statistics.2 := by
  have h := w.lapse_catchUp.trans w.catchUp.lapse_query
  rwa [List.append_nil] at h

end World

end InbandTrace
