import InbandTrace.Engine
import InbandTrace.Proofs.Connection.Agenda
import InbandTrace.Proofs.Registry.Assigned

namespace InbandTrace

def Event.operation? (due : Instant) : Event → Option Registry.Operation
  | .packet data source => some (.packet data source due)
  | .reap ahead => some (.reap (due + ahead))
  | .registry op => some op
  | _ => none

def Event.Allowed (P : Registry.Operation → Prop) (e : Event) : Prop :=
  ∀ due op, e.operation? due = some op → P op

namespace World

theorem registry_happen (w : World) (due : Instant) (e : Event) :
    (w.happen due e).engine.registry = w.engine.registry.after (e.operation? due).toList := by
  cases e <;> rfl

/-- What a trace can do to its world without a ping and without a record. Every operation on the
registry that it takes part in, or lets happen, has property `P`. -/
structure Evolves (P : Registry.Operation → Prop) (w w' : World) : Prop where
  now : w'.now = w.now
  config : w'.engine.config = w.engine.config
  wallClock : w'.engine.wallClock = w.engine.wallClock
  records : w'.engine.records = w.engine.records
  behaviour : w'.connection.behaviour = w.connection.behaviour
  pings : w'.connection.pings = w.connection.pings
  agenda : w'.connection.agenda <:+ w.connection.agenda
  registry : ∃ ops, (∀ op ∈ ops, P op) ∧ w'.engine.registry = w.engine.registry.after ops

def Allowed (P : Registry.Operation → Prop) (w : World) : Prop :=
  ∀ x ∈ w.connection.agenda, x.2.Allowed P

variable {P : Registry.Operation → Prop}

theorem allowed_true (w : World) : w.Allowed fun _ => True := fun _ _ _ _ _ => trivial

namespace Evolves

theorem refl (w : World) : Evolves P w w :=
  ⟨rfl, rfl, rfl, rfl, rfl, rfl, List.suffix_refl _, [], by simp, rfl⟩

theorem trans {a b c : World} (h : Evolves P a b) (h' : Evolves P b c) : Evolves P a c := by
  obtain ⟨xs, hxs, hb⟩ := h.registry
  obtain ⟨ys, hys, hc⟩ := h'.registry
  refine ⟨h'.now.trans h.now, h'.config.trans h.config, h'.wallClock.trans h.wallClock,
    h'.records.trans h.records, h'.behaviour.trans h.behaviour, h'.pings.trans h.pings,
    h'.agenda.trans h.agenda, xs ++ ys, ?_, ?_⟩
  · intro op hop
    rcases List.mem_append.mp hop with hop | hop
    · exact hxs op hop
    · exact hys op hop
  · rw [hc, hb, Registry.after_append]

theorem allowed {w w' : World} (h : Evolves P w w') (ha : w.Allowed P) : w'.Allowed P :=
  fun x hx => ha x (h.agenda.subset hx)

theorem sound {w w' : World} (h : Evolves P w w') (hs : w.engine.registry.Sound) :
    w'.engine.registry.Sound := by
  obtain ⟨ops, -, hr⟩ := h.registry
  exact hr ▸ hs.after ops

theorem assigned {w w' : World} (h : Evolves P w w') {n : Nat} {Q : Entry → Prop}
    (hq : ∀ op, P op → op.Keeps Q) (ha : w.engine.registry.Assigned n Q) :
    w'.engine.registry.Assigned n Q := by
  obtain ⟨ops, hops, hr⟩ := h.registry
  exact hr ▸ ha.after fun op hop => hq op (hops op hop)

end Evolves

theorem evolves_happen (w : World) (due : Instant) (e : Event) (he : e.Allowed P) :
    Evolves P w (w.happen due e) := by
  refine ⟨?_, ?_, ?_, ?_, ?_, ?_, ?_, _, ?_, w.registry_happen due e⟩
  · cases e <;> rfl
  · cases e <;> rfl
  · cases e <;> rfl
  · cases e <;> rfl
  · cases e <;> rfl
  · cases e <;> rfl
  · cases e <;> exact List.suffix_refl _
  · intro op hop
    exact he due op (by simpa using hop)

@[simp]
theorem agenda_happen (w : World) (due : Instant) (e : Event) :
    (w.happen due e).connection.agenda = w.connection.agenda := by
  cases e <;> rfl

@[simp]
theorem now_happen (w : World) (due : Instant) (e : Event) : (w.happen due e).now = w.now := by
  cases e <;> rfl

@[simp]
theorem ttl_happen (w : World) (due : Instant) (e : Event) :
    (w.happen due e).connection.ttl = w.connection.ttl := by
  cases e <;> rfl

theorem evolves_settleAgenda {agenda : Agenda} {w : World} (hs : agenda <:+ w.connection.agenda)
    (ha : w.Allowed P) : Evolves P w (settleAgenda agenda w) := by
  induction agenda generalizing w with
  | nil => exact ⟨rfl, rfl, rfl, rfl, rfl, rfl, List.nil_suffix, [], by simp, rfl⟩
  | cons x rest ih =>
      obtain ⟨due, e⟩ := x
      simp only [settleAgenda]
      split
      · have hfirst := w.evolves_happen due e (ha (due, e) (hs.subset (by simp)))
        refine hfirst.trans (ih ?_ (hfirst.allowed ha))
        rw [agenda_happen]
        exact (List.suffix_cons _ _).trans hs
      · exact ⟨rfl, rfl, rfl, rfl, rfl, rfl, hs, [], by simp, rfl⟩

theorem evolves_catchUp (w : World) (ha : w.Allowed P) : Evolves P w w.catchUp :=
  evolves_settleAgenda (List.suffix_refl _) ha

theorem agenda_settleAgenda (agenda : Agenda) (w : World) :
    (settleAgenda agenda w).connection.agenda = agenda.dropWhile fun e => decide (e.1 ≤ w.now) := by
  induction agenda generalizing w with
  | nil => rfl
  | cons x rest ih =>
      obtain ⟨due, e⟩ := x
      simp only [settleAgenda]
      split
      · rename_i h
        rw [ih, now_happen, List.dropWhile_cons_of_pos (by simpa using h)]
      · rename_i h
        rw [List.dropWhile_cons_of_neg (by simpa using h)]

theorem agenda_catchUp (w : World) :
    w.catchUp.connection.agenda = w.connection.agenda.dropWhile fun e => decide (e.1 ≤ w.now) :=
  agenda_settleAgenda _ _

theorem ttl_settleAgenda (agenda : Agenda) (w : World) :
    (settleAgenda agenda w).connection.ttl = w.connection.ttl := by
  induction agenda generalizing w with
  | nil => rfl
  | cons x rest ih =>
      simp only [settleAgenda]
      split
      · rw [ih, ttl_happen]
      · rfl

@[simp]
theorem ttl_catchUp (w : World) : w.catchUp.connection.ttl = w.connection.ttl :=
  ttl_settleAgenda _ _

theorem evolves_query (w : World) : Evolves P w w.query.2 :=
  ⟨rfl, rfl, rfl, rfl, rfl, rfl, List.suffix_refl _, [], by simp, rfl⟩

theorem evolves_statistics (w : World) (ha : w.Allowed P) : Evolves P w w.statistics.2 :=
  (w.evolves_catchUp ha).trans w.catchUp.evolves_query

theorem evolves_setTtl (w : World) (ttl : Nat) : Evolves P w (w.setTtl ttl).2 := by
  unfold setTtl Connection.setTtl
  split <;> exact ⟨rfl, rfl, rfl, rfl, rfl, rfl, List.suffix_refl _, [], by simp, rfl⟩

theorem ttl_setTtl {w : World} {ttl : Nat} (h : (w.setTtl ttl).1 = none) :
    (w.setTtl ttl).2.connection.ttl = ttl := by
  unfold setTtl Connection.setTtl at h ⊢
  split
  · rename_i fault hf
    simp [hf] at h
  · rfl

theorem evolves_withRegistry (w : World) (ops : List Registry.Operation)
    (hops : ∀ op ∈ ops, P op) :
    Evolves P w (w.withRegistry (w.engine.registry.after ops)) :=
  ⟨rfl, rfl, rfl, rfl, rfl, rfl, List.suffix_refl _, ops, hops, rfl⟩

theorem evolves_forget (w : World) {token : Token} {mailbox : Nat} (hr : P (.release token))
    (hd : P (.drop mailbox)) : Evolves P w (w.forget token mailbox) := by
  refine w.evolves_withRegistry [.release token, .drop mailbox] ?_
  simp [hr, hd]

theorem evolves_receive (w : World) {mailbox : Nat} (hr : P (.receive mailbox)) :
    Evolves P w (w.receive mailbox).2 := by
  refine w.evolves_withRegistry [.receive mailbox] ?_
  simp [hr]

theorem evolves_restamp (w : World) (token : Token) (s d : Instant)
    (hp : P (.restamp token s d)) :
    Evolves P w (w.withRegistry (w.engine.registry.restamp token s d).2) :=
  w.evolves_withRegistry [.restamp token s d] (by simp [hp])

theorem evolves_register (w : World) {token : Token} {ttl : UInt8} {s d : Instant} {m : Nat}
    {r : Registry} (hr : w.engine.registry.register token ttl s d = some (m, r))
    (hp : P (.register token ttl s d)) : Evolves P w (w.withRegistry r) := by
  have hafter : r = w.engine.registry.after [.register token ttl s d] := by
    simp [Registry.after, Registry.apply, hr]
  rw [hafter]
  exact w.evolves_withRegistry _ (by simp [hp])

end World

end InbandTrace
