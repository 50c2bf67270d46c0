import InbandTrace.Proofs.Engine.Swept
import InbandTrace.Proofs.Sender.Company

namespace InbandTrace.World

open Registry (Level)

variable {w : World} {g : Guise} {own : Option Flight} {s : Sender}

theorem disguised_start (hfits : w.connection.Fits g)
    (hx : ∀ x ∈ w.connection.agenda, x.2.Solitary) (hlone : w.engine.registry.Lone none) :
    Disguised (Sender.start w) (Sender.start (w.guise g)) := by
  have hflow : Sender.flowOf (w.guise g).connection.behaviour =
      Sender.flowOf w.connection.behaviour := rfl
  obtain ⟨info, w₁, g', hasked, hasked', hfits', -⟩ := statistics_guise hfits hx hlone
  have hfault : (w₁.guise g').connection.behaviour.ttlFault =
      w₁.connection.behaviour.ttlFault := rfl
  unfold Sender.start
  rw [hflow, hasked, hasked']
  cases Sender.flowOf w.connection.behaviour with
  | error e => exact ⟨g, rfl, hfits⟩
  | ok flow =>
      cases info with
      | error fault => exact ⟨g', rfl, hfits'⟩
      | ok info =>
          simp only [hfault]
          cases w₁.connection.behaviour.ttlFault <;> exact ⟨g', rfl, hfits'⟩

def stamped (w : World) (s : Sender) : World :=
  w.withRegistry (w.engine.registry.restamp s.token w.now (w.now + s.hopTimeout)).2

def depart (w : World) (s : Sender) (ttl : UInt8) (retransmitted mailbox : Nat)
    (deadline : Instant) : Except Fault Departure × World :=
  let write := w.connection.behaviour.write w.connection.ttl
  match write.refusal with
  | some fault => (.error fault, w)
  | none =>
      let payload := Payload.bytes s.serial ttl
      (.ok ⟨⟨s.token, ttl, w.now, deadline, payload, retransmitted, mailbox⟩,
          write.pause.isSome, w.now + write.takes, write.failure⟩,
        w.ping payload)

theorem transmit_eq (w : World) (s : Sender) (ttl : UInt8) (retransmitted mailbox : Nat) :
    s.transmit w ttl retransmitted mailbox =
      match w.setTtl ttl.toNat with
      | (some fault, w) => (.error fault, w)
      | (none, w) =>
          (w.stamped s).catchUp.depart s ttl retransmitted mailbox (w.now + s.hopTimeout) := rfl

theorem disguised_depart (hfits : w.connection.Fits g) (ttl : UInt8) (retransmitted mailbox : Nat)
    (deadline : Instant) :
    Disguised (w.depart s ttl retransmitted mailbox deadline)
      ((w.guise g).depart s ttl retransmitted mailbox deadline) := by
  have hrefusal : ((w.guise g).connection.behaviour.write (w.guise g).connection.ttl).refusal =
      (w.connection.behaviour.write w.connection.ttl).refusal := rfl
  simp only [depart, hrefusal]
  cases (w.connection.behaviour.write w.connection.ttl).refusal with
  | some fault => exact ⟨g, rfl, hfits⟩
  | none =>
      obtain ⟨g', hping, hfits'⟩ := ping_guise hfits (Payload.bytes s.serial ttl)
      rw [hping]
      exact ⟨g', rfl, hfits'⟩

theorem disguised_transmit (hfits : w.connection.Fits g) (hquiet : (w.guise g).Quiet) (ttl : UInt8)
    (retransmitted mailbox : Nat) :
    Disguised (s.transmit w ttl retransmitted mailbox)
      (s.transmit (w.guise g) ttl retransmitted mailbox) := by
  obtain ⟨refused, w₁, hset, hset', hfits₁, hnow, -⟩ := setTtl_guise hfits ttl.toNat
  rw [transmit_eq, transmit_eq, hset, hset']
  cases refused with
  | some fault => exact ⟨g, rfl, hfits₁⟩
  | none =>
      have hquiet' : ((w₁.stamped s).guise g).Quiet := by
        intro x hx
        change w₁.now < x.1
        rw [hnow]
        exact hquiet x hx
      have hstill : ((w₁.guise g).stamped s).catchUp = (w₁.stamped s).guise g :=
        catchUp_of_quiet hquiet'
      have hstill' : (w₁.stamped s).catchUp = w₁.stamped s :=
        catchUp_of_quiet (hquiet'.of_guise hfits₁)
      simp only [hstill, hstill']
      exact disguised_depart (w := w₁.stamped s) hfits₁ ttl retransmitted mailbox _

theorem abandon_guise (hfits : w.connection.Fits g) (mailbox : Nat) :
    s.abandon (w.guise g) mailbox = (s.abandon w mailbox).guise g ∧
      (s.abandon w mailbox).connection.Fits g := by
  obtain ⟨refused, w₁, hset, hset', hfits₁, -⟩ := setTtl_guise hfits s.defaultTtl
  simp only [Sender.abandon, Sender.restore, hset, hset']
  exact ⟨rfl, hfits₁⟩

theorem disguised_launch (hfits : w.connection.Fits g) (hquiet : (w.guise g).Quiet) (ttl : UInt8) :
    ∃ answer s' w₁ g', s.launch w ttl = (answer, s', w₁) ∧
      s.launch (w.guise g) ttl = (answer, s', w₁.guise g') ∧ w₁.connection.Fits g' := by
  let w₀ := w.query.2
  have hasked : w.statistics = (w.query.1, w₀) := by
    rw [statistics, catchUp_of_quiet (hquiet.of_guise hfits)]
  have hasked' : (w.guise g).statistics = (w.query.1, w₀.guise g) := by
    rw [statistics, catchUp_of_quiet hquiet]
    rfl
  have hfits₀ : w₀.connection.Fits g := ⟨hfits.agenda, hfits.ordered, hfits.prompted⟩
  cases hr : s.reserve ttl w₀.now (Sender.attempts - 1) w₀.engine.registry with
  | mk s' reserved =>
      have hr' : s.reserve ttl (w₀.guise g).now (Sender.attempts - 1)
          (w₀.guise g).engine.registry = (s', reserved) := hr
      cases reserved with
      | error token =>
          refine ⟨.error (.tokenCollision token), s', w₀, g, ?_, ?_, hfits₀⟩
          · simp only [Sender.launch, hasked, hr]
          · simp only [Sender.launch, hasked', hr']
      | ok reserved =>
          obtain ⟨mailbox, r⟩ := reserved
          obtain ⟨answer, w₁, g₁, hsent, hsent', hfits₁⟩ :=
            (disguised_transmit (w := w₀.withRegistry r) (s := s') hfits₀ hquiet ttl
              (Sender.retransmitted w.query.1) mailbox).both
          have hlaunch := Sender.launch_of_transmit hasked hr hsent
          have hlaunch' := Sender.launch_of_transmit hasked' hr' hsent'
          cases answer with
          | ok d => exact ⟨_, s', w₁, g₁, hlaunch, hlaunch', hfits₁⟩
          | error fault =>
              obtain ⟨hback, hfits₂⟩ := abandon_guise (s := s') hfits₁ mailbox
              exact ⟨_, s', _, g₁, hlaunch, hlaunch'.trans (by rw [hback]), hfits₂⟩

theorem disguised_land {d : Departure} (hfits : w.connection.Fits g)
    (hx : ∀ x ∈ w.connection.agenda, x.2.Solitary)
    (hlone : w.engine.registry.Lone (some d.flight)) (hearly : w.now < d.flight.deadline) :
    Disguised (s.land w d) (s.land (w.guise g) d) := by
  obtain ⟨w₁, g₁, hfirst, hfirst', hfits₁⟩ : ∃ w₁ g₁, (if d.pauses then w.catchUp else w) = w₁ ∧
      (if d.pauses then (w.guise g).catchUp else w.guise g) = w₁.guise g₁ ∧
      w₁.connection.Fits g₁ := by
    split
    · obtain ⟨g', hsame, hfits'⟩ := catchUp_guise hfits hx hlone fun f hf => by
        cases hf
        exact hearly
      exact ⟨_, g', rfl, hsame, hfits'⟩
    · exact ⟨w, g, rfl, rfl, hfits⟩
  obtain ⟨refused, w₂, hset, hset', hfits₂, -⟩ := setTtl_guise hfits₁ s.defaultTtl
  simp only [Sender.land, Sender.restore, hfirst, hfirst', hset, hset']
  cases d.failure with
  | some fault => exact ⟨g₁, rfl, hfits₂⟩
  | none => cases refused <;> exact ⟨g₁, rfl, hfits₂⟩

theorem readSignals_guise (w : World) (g : Guise) (r' : Registry) (flight : Flight)
    (signals : List Signal) :
    readSignals flight signals ((w.guise g).withRegistry r') =
      ((readSignals flight signals w).1,
        ((readSignals flight signals w).2.guise g).withRegistry r') := by
  induction signals generalizing w with
  | nil => rfl
  | cons signal rest ih =>
      cases signal with
      | closed => rfl
      | pong payload =>
          have hasked : ((w.guise g).withRegistry r').query =
              (w.query.1, (w.query.2.guise g).withRegistry r') := rfl
          simp only [readSignals, hasked]
          split
          · obtain ⟨info, w₁⟩ := w.query
            cases info with
            | error fault => exact ih w₁
            | ok info =>
                simp only
                split
                · rfl
                · exact ih w₁
          · exact ih w

theorem listen_guise (hfits : w.connection.Fits g) (hx : ∀ x ∈ w.connection.agenda, x.2.Solitary)
    (hlone : w.engine.registry.Lone own) (flight : Flight) :
    ∃ sign w₁ g' r', w.listen flight = (sign, w₁) ∧
      (w.guise g).listen flight = (sign, (w₁.guise g').withRegistry r') ∧
      Level own w.now w₁.engine.registry r' ∧ w₁.connection.Fits g' ∧ w₁.now = w.now := by
  obtain ⟨g', r', hsame, hlevel, hfits'⟩ := catchUp_level hfits hx hlone
  have hread := lapse_readSignals flight (w := w.catchUp) fun s hs => hs
  refine ⟨_, (w.listen flight).2, g', r', rfl, ?_, ?_, ?_, (w.lapse_listen flight).now⟩
  · have hinbox : (w.guise g).catchUp.connection.inbox = w.catchUp.connection.inbox := by
      rw [hsame]
      rfl
    rw [listen, hinbox, hsame]
    exact readSignals_guise ..
  · rw [show (w.listen flight).2.engine.registry = w.catchUp.engine.registry from hread.registry]
    exact hlevel
  · have hagenda : (w.listen flight).2.connection.agenda = w.catchUp.connection.agenda :=
      hread.agenda.symm
    have hbehaviour : (w.listen flight).2.connection.behaviour = w.catchUp.connection.behaviour :=
      hread.behaviour
    refine ⟨?_, hfits'.ordered, ?_⟩
    · rw [hagenda]
      exact hfits'.agenda
    · rw [hbehaviour]
      exact hfits'.prompted

end InbandTrace.World
