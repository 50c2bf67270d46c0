import InbandTrace.Proofs.Sender.Swept
import InbandTrace.Proofs.Trace.Custody

namespace InbandTrace

namespace World

variable {w : World} {g : Guise} {sweep : Sweep}

theorem disguised_finish (hfits : w.connection.Fits g) (s : Session) (abort : Option Abort) :
    Disguised (w.finish s abort) ((w.guise g).finish s abort) := ⟨g, rfl, hfits⟩

theorem disguised_giveUp (hfits : w.connection.Fits g) (s : Session) (abort : Abort) :
    Disguised (w.giveUp s abort) ((w.guise g).giveUp s abort) := by
  unfold giveUp
  split
  · exact disguised_finish hfits s (some abort)
  · split
    · exact disguised_finish hfits _ (some abort)
    · exact ⟨g, rfl, hfits⟩

theorem disguised_settling (hfits : w.connection.Fits g) (sweep : Sweep) :
    Disguised (w.settling sweep) ((w.guise g).settling sweep) := ⟨g, rfl, hfits⟩

theorem disguised_conclude (hfits : w.connection.Fits g) (sweep : Sweep) (hop : Hop) :
    Disguised (w.conclude sweep hop) ((w.guise g).conclude sweep hop) := by
  unfold conclude
  split
  · exact disguised_giveUp hfits ..
  · split
    · exact disguised_giveUp hfits ..
    · split
      · exact disguised_settling hfits _
      · exact disguised_finish hfits _ none

theorem disguised_await {next next' : Session → Turn} (hfits : w.connection.Fits g)
    (h : ∀ s, Disguised (next s) (next' s)) :
    Disguised (w.await sweep next) ((w.guise g).await sweep next') := by
  unfold await
  split
  · exact disguised_giveUp hfits ..
  · exact h _

theorem disguised_opening (hfits : w.connection.Fits g)
    (hx : ∀ x ∈ w.connection.agenda, x.2.Solitary) (hlone : w.engine.registry.Lone none)
    (id : String) : Disguised (w.opening id) ((w.guise g).opening id) := by
  obtain ⟨answer, w₁, g₁, hstart, hstart', hfits₁⟩ := (disguised_start hfits hx hlone).both
  simp only [opening, hstart, hstart']
  cases answer with
  | error e => exact disguised_giveUp hfits₁ ..
  | ok sender =>
      have hsession : (w₁.guise g₁).sessionTo id = w₁.sessionTo id := rfl
      simp only [hsession]
      split
      · exact disguised_giveUp hfits₁ ..
      · exact disguised_settling hfits₁ _

theorem disguised_probe (hfits : w.connection.Fits g) (hquiet : (w.guise g).Quiet) :
    Disguised (w.probe sweep) ((w.guise g).probe sweep) := by
  obtain ⟨answer, s, w₁, g₁, hsent, hsent', hfits₁⟩ :=
    disguised_launch (s := sweep.sender) hfits hquiet sweep.ttl
  simp only [probe, hsent, hsent']
  cases answer with
  | ok departure => exact ⟨g₁, rfl, hfits₁⟩
  | error e =>
      cases e with
      | tokenCollision token => exact disguised_await hfits₁ fun s => disguised_conclude hfits₁ ..
      | _ => exact disguised_giveUp hfits₁ ..

theorem disguised_probeWhenQuiet (hfits : w.connection.Fits g)
    (hx : ∀ x ∈ w.connection.agenda, x.2.Solitary) (hlone : w.engine.registry.Lone none)
    (giveUp : Instant) :
    Disguised (w.probeWhenQuiet sweep giveUp) ((w.guise g).probeWhenQuiet sweep giveUp) := by
  obtain ⟨info, w₁, g₁, hasked, hasked', hfits₁, hquiet⟩ := statistics_guise hfits hx hlone
  have hnow : (w₁.guise g₁).now = w₁.now := rfl
  simp only [probeWhenQuiet, hasked, hasked', hnow]
  split
  · exact disguised_probe hfits₁ hquiet
  · exact ⟨g₁, rfl, hfits₁⟩

theorem disguised_written {d : Departure} (hfits : w.connection.Fits g)
    (hx : ∀ x ∈ w.connection.agenda, x.2.Solitary)
    (hlone : w.engine.registry.Lone (some d.flight)) (hearly : w.now < d.flight.deadline) :
    Disguised (w.written sweep d) ((w.guise g).written sweep d) := by
  obtain ⟨answer, w₁, g₁, hsent, hsent', hfits₁⟩ :=
    (disguised_land (s := sweep.sender) hfits hx hlone hearly).both
  simp only [written, hsent, hsent']
  cases answer with
  | error fault => exact disguised_giveUp hfits₁ ..
  | ok flight => exact disguised_await hfits₁ fun s => ⟨g₁, rfl, hfits₁⟩

theorem forget_guise {f : Flight} {r' : Registry}
    (hlevel : Registry.Level (some f) w.now w.engine.registry r') :
    ((w.guise g).withRegistry r').forget f.token f.mailbox =
      (w.forget f.token f.mailbox).guise g := by
  have hsame := hlevel.forget
  change (w.guise g).withRegistry ((r'.release f.token).2.drop f.mailbox) = _
  rw [hsame]
  rfl

theorem disguised_look {flight : Flight} (hfits : w.connection.Fits g)
    (hx : ∀ x ∈ w.connection.agenda, x.2.Solitary)
    (hlone : w.engine.registry.Lone (some flight)) :
    Disguised (w.look sweep flight) ((w.guise g).look sweep flight) := by
  have hread : (w.guise g).receive flight.mailbox =
      ((w.receive flight.mailbox).1, (w.receive flight.mailbox).2.guise g) := rfl
  have hlone₁ : (w.receive flight.mailbox).2.engine.registry.Lone (some flight) :=
    hlone.receive flight.mailbox
  have hfits₁ : (w.receive flight.mailbox).2.connection.Fits g := hfits
  have hx₁ : ∀ x ∈ (w.receive flight.mailbox).2.connection.agenda, x.2.Solitary := hx
  simp only [look, hread]
  generalize w.receive flight.mailbox = read at *
  obtain ⟨receipt, w₁⟩ := read
  -- Only an empty mailbox leads to a look at the connection, where the guise may grow.
  cases receipt with
  | hop hop => exact disguised_conclude (w := w₁.forget flight.token flight.mailbox) hfits₁ ..
  | closed => exact disguised_conclude (w := w₁.forget flight.token flight.mailbox) hfits₁ ..
  | empty =>
      obtain ⟨sign, w₂, g₂, r', hsign, hsign', hlevel, hfits₂, hnow⟩ :=
        listen_guise hfits₁ hx₁ hlone₁ flight
      rw [← hnow] at hlevel
      have hleft := forget_guise (g := g₂) hlevel
      have hnow' : ((w₂.guise g₂).withRegistry r').now = w₂.now := rfl
      have hfits₃ : (w₂.forget flight.token flight.mailbox).connection.Fits g₂ := hfits₂
      simp only [hsign, hsign']
      cases sign with
      | echoed =>
          simp only [hleft]
          exact disguised_conclude hfits₃ ..
      | closed =>
          simp only [hleft]
          exact disguised_giveUp hfits₃ ..
      | nothing =>
          simp only [hleft, hnow']
          split
          · exact disguised_conclude hfits₃ ..
          · rename_i hearly
            have hsame : r' = w₂.engine.registry := hlevel.early fun f hf => by
              cases hf
              exact Nat.lt_of_not_le hearly
            rw [hsame]
            exact ⟨g₂, rfl, hfits₂⟩

end World

theorem Registry.Custody.lone {P : Token → Prop} {before after : Option Flight}
    {ops : List Registry.Operation} {r r' : Registry}
    (hc : Registry.Custody P before ops after r r') (h : r.Lone before)
    (hops : ∀ op ∈ ops, op.Passing 0) : r'.Lone after := by
  induction hc with
  | lapse ops => exact h.after hops
  | enter hp hr => exact h.enter hr
  | read => exact h.receive _
  | leave => exact h.leave
  | trans _ _ ih ih' =>
      exact ih' (ih h fun op hop => hops op (List.mem_append_left _ hop)) fun op hop =>
        hops op (List.mem_append_right _ hop)

namespace Trace

def guise (t : Trace) (g : Guise) : Trace := { t with connection := t.connection.guise g }

structure Sheltered (now : Instant) (e : Engine) (t : Trace) : Prop where
  agenda : ∀ x ∈ t.connection.agenda, x.2.Solitary
  lone : e.registry.Lone t.phase.flight?
  early : ∀ sweep d, t.phase = .writing sweep d → now < d.flight.deadline

variable {t : Trace} {g : Guise} {now : Instant} {e : Engine}

theorem disguised_turn (hfits : t.connection.Fits g) (h : t.Sheltered now e) :
    World.Disguised (t.turn now e) ((t.guise g).turn now e) := by
  have hworld : (t.guise g).world now e = (t.world now e).guise g := rfl
  have hcancel : (t.guise g).isCancelled e = t.isCancelled e := rfl
  have hphase' : (t.guise g).phase = t.phase := rfl
  have hid : (t.guise g).id = t.id := rfl
  have hfits' : (t.world now e).connection.Fits g := hfits
  have hlone := h.lone
  unfold turn
  rw [hworld, hcancel, hphase', hid]
  cases hphase : t.phase with
  | opening =>
      rw [hphase] at hlone
      exact World.disguised_opening hfits' h.agenda hlone t.id
  | settling sweep giveUp wake =>
      rw [hphase] at hlone
      simp only
      split
      · exact World.disguised_giveUp hfits' ..
      · exact World.disguised_probeWhenQuiet hfits' h.agenda hlone giveUp
  | writing sweep d =>
      rw [hphase] at hlone
      exact World.disguised_written hfits' h.agenda hlone (h.early sweep d hphase)
  | awaiting sweep flight =>
      rw [hphase] at hlone
      simp only
      split
      · exact World.disguised_giveUp (w := (t.world now e).forget flight.token flight.mailbox)
          hfits' ..
      · exact World.disguised_look hfits' h.agenda hlone
  | finished outcome at_ => exact ⟨g, rfl, hfits'⟩

theorem guise_step (hfits : t.connection.Fits g) (h : t.Sheltered now e) :
    ∃ g', (t.guise g).step now e = ((t.step now e).1.guise g', (t.step now e).2) ∧
      (t.step now e).1.connection.Fits g' := by
  obtain ⟨g', hturn, hfits'⟩ := disguised_turn hfits h
  refine ⟨g', ?_, hfits'⟩
  rw [world_step, hturn]
  rfl

theorem ready_guise (hfits : t.connection.Fits g) (h : t.ready now e) :
    (t.guise g).ready now e := by
  have hphase' : (t.guise g).phase = t.phase := rfl
  have hcancel : (t.guise g).isCancelled e = t.isCancelled e := rfl
  have hinbox : (t.guise g).connection.inbox = t.connection.inbox := rfl
  have hdue : t.connection.isDue now → (t.guise g).connection.isDue now :=
    Connection.isDue_guise hfits
  unfold ready at h ⊢
  rw [hphase', hcancel, hinbox]
  cases hphase : t.phase with
  | opening => rfl
  | awaiting sweep flight =>
      rw [hphase] at h
      simp only [Bool.or_eq_true] at h ⊢
      exact h.imp_left (Or.imp_right hdue)
  | _ =>
      rw [hphase] at h
      exact h

theorem wake?_guise (hfits : t.connection.Fits g) {m : Instant} (h : t.wake? = some m) :
    ∃ m' ≤ m, (t.guise g).wake? = some m' := by
  have hphase' : (t.guise g).phase = t.phase := rfl
  unfold wake? at h ⊢
  rw [hphase']
  cases hphase : t.phase with
  | awaiting sweep flight =>
      rw [hphase] at h
      cases h
      exact ⟨_, hfits.agenda.foldl_min_le flight.deadline, rfl⟩
  | _ =>
      rw [hphase] at h
      exact ⟨m, Nat.le_refl m, h⟩

theorem awaiting_of_ready_guise (h : (t.guise g).ready now e) (hidle : t.ready now e = false) :
    ∃ sweep flight, t.phase = .awaiting sweep flight := by
  have hphase' : (t.guise g).phase = t.phase := rfl
  have hcancel : (t.guise g).isCancelled e = t.isCancelled e := rfl
  unfold ready at h hidle
  rw [hphase', hcancel] at h
  cases hphase : t.phase with
  | awaiting sweep flight => exact ⟨sweep, flight, rfl⟩
  | _ =>
      rw [hphase] at h hidle
      exact absurd (hidle.symm.trans h) Bool.false_ne_true

theorem step_of_idle {sweep : Sweep} {flight : Flight} (hphase : t.phase = .awaiting sweep flight)
    (hidle : t.ready now e = false) : t.step now e = (t, e) := by
  simp only [ready, hphase, Bool.or_eq_false_iff, bne_eq_false_iff_eq, Bool.not_eq_false',
    List.isEmpty_iff, decide_eq_false_iff_not] at hidle
  obtain ⟨⟨⟨⟨hcancel, hbox⟩, hinbox⟩, hdue⟩, hlate⟩ := hidle
  have hread : (t.world now e).receive flight.mailbox = (.empty, t.world now e) := by
    have hbox' : (t.world now e).engine.registry.mailbox? flight.mailbox = some .waiting := hbox
    simp only [World.receive, Registry.receive, hbox']
    rfl
  have hquiet : (t.world now e).Quiet := by
    intro x hx
    simp only [Connection.isDue, List.any_eq_false, decide_eq_true_eq, Nat.not_le] at hdue
    exact hdue x hx
  have hsign : (t.world now e).listen flight = (.nothing, t.world now e) := by
    have hinbox' : (t.world now e).connection.inbox = [] := hinbox
    rw [World.listen, World.catchUp_of_quiet hquiet, hinbox']
    simp only [World.readSignals, ← hinbox']
  have hturn : t.turn now e = (.awaiting sweep flight, t.world now e) := by
    have hlate' : ¬ flight.deadline ≤ (t.world now e).now := hlate
    simp only [turn, hphase, hcancel, World.look, hread, hsign, if_neg hlate']
    rfl
  rw [world_step, hturn, ← hphase]
  rfl

end Trace

end InbandTrace
