import InbandTrace.Proofs.Connection.Swept
import InbandTrace.Proofs.Registry.Lone

namespace InbandTrace

open Registry (Level)

def Event.Solitary : Event → Prop
  | .registry _ => False
  | _ => True

theorem Event.Solitary.passing {x : Event} (h : x.Solitary) :
    x.Allowed (Registry.Operation.Passing 0) := by
  intro due op hop
  cases x with
  | packet data source =>
      cases hop
      trivial
  | reap ahead =>
      cases hop
      trivial
  | registry op' => exact h.elim
  | _ => cases hop

namespace World

def guise (w : World) (g : Guise) : World := { w with connection := w.connection.guise g }

def Quiet (w : World) : Prop := ∀ x ∈ w.connection.agenda, w.now < x.1

variable {w : World} {g : Guise} {own : Option Flight} {r' : Registry}

theorem settleAgenda_of_late {agenda : Agenda} (h : ∀ x ∈ agenda, w.now < x.1) :
    settleAgenda agenda w = { w with connection := { w.connection with agenda := agenda } } := by
  cases agenda with
  | nil => rfl
  | cons x rest => rw [settleAgenda, if_neg (Nat.not_le_of_lt (h x List.mem_cons_self))]

theorem catchUp_of_quiet (h : w.Quiet) : w.catchUp = w := settleAgenda_of_late h

theorem quiet_catchUp (h : w.connection.agenda.Ordered) : w.catchUp.Quiet := by
  intro x hx
  rw [agenda_catchUp] at hx
  rw [(w.evolves_catchUp w.allowed_true).now]
  exact h.lt_of_mem_dropWhile hx

theorem happen_guise (w : World) (g : Guise) (r' : Registry) (due : Instant) (e : Event) :
    ∃ captures, ((w.guise g).withRegistry r').happen due e =
      ((w.happen due e).guise { g with captures := captures }).withRegistry
        (r'.after (e.operation? due).toList) := by
  refine ⟨(((w.guise g).withRegistry r').happen due e).connection.captures, ?_⟩
  cases e <;> rfl

theorem level_happen (h : Level own w.now w.engine.registry r') (due : Instant) {e : Event}
    (he : e.Solitary) :
    Level own w.now (w.happen due e).engine.registry (r'.after (e.operation? due).toList) := by
  rw [registry_happen]
  cases hop : e.operation? due with
  | none => exact h
  | some op => exact h.apply (he.passing due op hop)

theorem settleAgenda_guise {xs ys : Agenda} (h : Agenda.Swept xs ys) (hord : ys.Ordered)
    (hx : ∀ x ∈ xs, x.2.Solitary)
    (hprompt : ∀ p, Agenda.Swept (w.connection.behaviour.prompted p)
      ((g.behaviour w.connection.behaviour).prompted p))
    (hlevel : Level own w.now w.engine.registry r') :
    ∃ g' r'', settleAgenda ys ((w.guise g).withRegistry r') =
        ((settleAgenda xs w).guise g').withRegistry r'' ∧
      Level own w.now (settleAgenda xs w).engine.registry r'' ∧
      (settleAgenda xs w).connection.Fits g' := by
  induction h generalizing w g r' with
  | nil => exact ⟨{ g with agenda := [] }, r', rfl, hlevel, .nil, hord, hprompt⟩
  | @keep x xs ys h ih =>
      obtain ⟨due, e⟩ := x
      simp only [settleAgenda]
      by_cases hdue : due ≤ w.now
      · obtain ⟨captures, hsame⟩ := w.happen_guise g r' due e
        have hnow : (w.happen due e).now = w.now := now_happen ..
        have hbehaviour : (w.happen due e).connection.behaviour = w.connection.behaviour := by
          cases e <;> rfl
        rw [if_pos hdue, if_pos (show due ≤ ((w.guise g).withRegistry r').now from hdue), hsame,
          ← hnow]
        refine ih (List.pairwise_cons.mp hord).2 (fun y hy => hx y (List.mem_cons_of_mem _ hy)) ?_ ?_
        · rw [hbehaviour]
          exact hprompt
        · rw [hnow]
          exact level_happen hlevel due (hx _ List.mem_cons_self)
      · rw [if_neg hdue, if_neg (show ¬due ≤ ((w.guise g).withRegistry r').now from hdue)]
        exact ⟨{ g with agenda := (due, e) :: ys }, r', rfl, hlevel, .keep _ h, hord, hprompt⟩
  | @sweep due xs ys h ih =>
      obtain ⟨hfirst, hrest⟩ := List.pairwise_cons.mp hord
      simp only [settleAgenda]
      by_cases hdue : due ≤ w.now
      · -- The other world has nothing on its agenda here, so only this registry changes.
        rw [if_pos (show due ≤ ((w.guise g).withRegistry r').now from hdue)]
        exact ih (g := { g with captures := (due, .reaped (r'.reap due).1) :: g.captures }) hrest hx
          hprompt (hlevel.sweep hdue)
      · rw [if_neg (show ¬due ≤ ((w.guise g).withRegistry r').now from hdue),
          settleAgenda_of_late fun x hin => Nat.lt_of_lt_of_le (Nat.lt_of_not_le hdue)
            (hfirst x (h.sublist.subset hin))]
        exact ⟨{ g with agenda := (due, .reap 0) :: ys }, r', rfl, hlevel, .sweep due h, hord,
          hprompt⟩

theorem catchUp_level (hfits : w.connection.Fits g) (hx : ∀ x ∈ w.connection.agenda, x.2.Solitary)
    (hlone : w.engine.registry.Lone own) :
    ∃ g' r', (w.guise g).catchUp = (w.catchUp.guise g').withRegistry r' ∧
      Level own w.now w.catchUp.engine.registry r' ∧ w.catchUp.connection.Fits g' :=
  settleAgenda_guise hfits.agenda hfits.ordered hx hfits.prompted (.refl hlone w.now)

theorem catchUp_guise (hfits : w.connection.Fits g) (hx : ∀ x ∈ w.connection.agenda, x.2.Solitary)
    (hlone : w.engine.registry.Lone own) (hearly : ∀ f ∈ own, w.now < f.deadline) :
    ∃ g', (w.guise g).catchUp = w.catchUp.guise g' ∧ w.catchUp.connection.Fits g' := by
  obtain ⟨g', r', hsame, hlevel, hfits'⟩ := catchUp_level hfits hx hlone
  refine ⟨g', ?_, hfits'⟩
  rw [hsame, hlevel.early hearly]
  rfl

/-- The second answer is the first one, given by a world in some guise. -/
def Disguised {α : Type} (answer answer' : α × World) : Prop :=
  ∃ g, answer' = (answer.1, answer.2.guise g) ∧ answer.2.connection.Fits g

theorem Disguised.both {α : Type} {answer answer' : α × World} (h : Disguised answer answer') :
    ∃ a w g, answer = (a, w) ∧ answer' = (a, w.guise g) ∧ w.connection.Fits g := by
  obtain ⟨g, hsame, hfits⟩ := h
  exact ⟨answer.1, answer.2, g, rfl, hsame, hfits⟩

theorem statistics_guise (hfits : w.connection.Fits g)
    (hx : ∀ x ∈ w.connection.agenda, x.2.Solitary) (hlone : w.engine.registry.Lone none) :
    ∃ info w₁ g', w.statistics = (info, w₁) ∧ (w.guise g).statistics = (info, w₁.guise g') ∧
      w₁.connection.Fits g' ∧ (w₁.guise g').Quiet := by
  obtain ⟨g', hsame, hfits'⟩ := catchUp_guise hfits hx hlone nofun
  have hquiet : (w.guise g).catchUp.Quiet := quiet_catchUp hfits.ordered
  rw [hsame] at hquiet
  refine ⟨_, w.catchUp.query.2, g', rfl, ?_, ⟨hfits'.agenda, hfits'.ordered, hfits'.prompted⟩,
    hquiet⟩
  rw [statistics, hsame]
  rfl

theorem Quiet.of_guise (h : (w.guise g).Quiet) (hfits : w.connection.Fits g) : w.Quiet :=
  fun x hx => h x (hfits.agenda.sublist.subset hx)

theorem setTtl_guise (hfits : w.connection.Fits g) (ttl : Nat) :
    ∃ refused w₁, w.setTtl ttl = (refused, w₁) ∧ (w.guise g).setTtl ttl = (refused, w₁.guise g) ∧
      w₁.connection.Fits g ∧ w₁.now = w.now ∧ w₁.engine = w.engine := by
  refine ⟨_, (w.setTtl ttl).2, rfl, ?_, Connection.setTtl_fits hfits ttl, rfl, rfl⟩
  have hset := w.connection.setTtl_guise g ttl
  simp only [setTtl]
  rw [show (w.guise g).connection = w.connection.guise g from rfl, hset]
  rfl

theorem ping_guise (hfits : w.connection.Fits g) (payload : List UInt8) :
    ∃ g', (w.guise g).ping payload = (w.ping payload).guise g' ∧
      (w.ping payload).connection.Fits g' := by
  obtain ⟨g', hsame, hfits'⟩ := Connection.ping_guise hfits w.now payload
  refine ⟨g', ?_, hfits'⟩
  rw [ping, show (w.guise g).connection = w.connection.guise g from rfl,
    show (w.guise g).now = w.now from rfl, hsame]
  rfl

end World

end InbandTrace
