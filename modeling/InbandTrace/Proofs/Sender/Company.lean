import InbandTrace.Proofs.Engine.Company
import InbandTrace.Proofs.Trace.Course

namespace InbandTrace

def Departure.later (delay : Span) (n : Nat) (d : Departure) : Departure :=
  { d with flight := d.flight.later delay n, done := d.done + delay }

namespace Sender

def retransmitted : Except Fault TcpInfo → Nat
  | .ok info => info.retransmitted
  | .error _ => 0

theorem launch_of_transmit {s s' : Sender} {w w₁ w₂ : World} {ttl : UInt8} {m : Nat}
    {r : Registry} {info : Except Fault TcpInfo} {answer : Except Fault Departure}
    (hasked : w.statistics = (info, w₁))
    (hr : s.reserve ttl w₁.now (attempts - 1) w₁.engine.registry = (s', .ok (m, r)))
    (hsent : s'.transmit (w₁.withRegistry r) ttl (retransmitted info) m = (answer, w₂)) :
    s.launch w ttl = match answer with
      | .ok d => (.ok d, s', w₂)
      | .error fault => (.error (.fault fault), s', s'.abandon w₂ m) := by
  cases info <;>
  · simp only [retransmitted] at hsent
    simp only [launch, hasked, hr, hsent]
    cases answer <;> rfl

end Sender

namespace World.Twin

variable {x : Company} {R : Registry → Registry → Prop} {w w' : World} {flow : Flow} {n : Nat}
  {s : Sender}

theorem start (h : Twin x R w w') (hr : Registry.Steady x.delay R) :
    (Sender.start w).1 = (Sender.start w').1 ∧
      Twin x R (Sender.start w).2 (Sender.start w').2 := by
  unfold Sender.start
  rw [h.connection.behaviour]
  cases Sender.flowOf w'.connection.behaviour with
  | error e => exact ⟨rfl, h⟩
  | ok flow =>
      obtain ⟨answer, w₁, w₁', hasked, hasked', h₁⟩ := both (h.statistics hr)
      simp only [hasked, hasked']
      cases answer with
      | error fault => exact ⟨rfl, h₁⟩
      | ok info =>
          have hfault : w₁.connection.behaviour.ttlFault = w₁'.connection.behaviour.ttlFault := by
            rw [h₁.connection.behaviour]
          cases hset : w₁'.connection.behaviour.ttlFault with
          | some fault =>
              simp only [hfault, hset]
              exact ⟨trivial, h₁⟩
          | none =>
              simp only [hfault, hset, h₁.connection.ttl, h₁.config]
              exact ⟨trivial, h₁⟩

theorem reserve {r r' : Registry} {d : Span} (h : Registry.Twin s.flow d n none r r')
    (ttl : UInt8) (now : Instant) (more : Nat) :
    ∃ m m' k k', s.reserve ttl (now + d) more r = (s.next, .ok (m, k)) ∧
      s.reserve ttl now more r' = (s.next, .ok (m', k')) ∧
      (k.restamp s.next.token (now + d) (now + d + s.hopTimeout)).2 = k ∧
      (k'.restamp s.next.token now (now + s.hopTimeout)).2 = k' ∧
      ∀ payload retransmitted, Registry.Twin s.flow d m
        (some ⟨s.next.token, ttl, now, now + s.hopTimeout, payload, retransmitted, m'⟩) k k' := by
  let f : Flight := ⟨s.next.token, ttl, now, now + s.hopTimeout, [], 0, 0⟩
  obtain ⟨m, m', k, k', hr, hr', htwin⟩ := h.enter (f := f) rfl
  simp only [f, Nat.add_right_comm now s.hopTimeout d] at hr
  refine ⟨m, m', k, k', Sender.reserve_of_free hr, Sender.reserve_of_free hr',
    Registry.restamp_of_register hr, Registry.restamp_of_register hr', ?_⟩
  intro payload retransmitted
  obtain ⟨hflow, tenancy, hs, hs'⟩ := htwin
  exact ⟨hflow, tenancy, by cases tenancy <;> exact hs, by cases tenancy <;> exact hs'⟩

theorem transmit {f : Flight} {ttl : UInt8} (hf : f = ⟨s.token, ttl, w'.now, w'.now + s.hopTimeout,
      Payload.bytes s.serial ttl, f.retransmitted, f.mailbox⟩)
    (h : Twin x (Registry.Twin flow x.delay n (some f)) w w')
    (hstamp : (w.engine.registry.restamp s.token w.now (w.now + s.hopTimeout)).2 =
      w.engine.registry)
    (hstamp' : (w'.engine.registry.restamp s.token w'.now (w'.now + s.hopTimeout)).2 =
      w'.engine.registry) :
    ∃ w₁ w₁', Twin x (Registry.Twin flow x.delay n (some f)) w₁ w₁' ∧
      ((∃ fault, s.transmit w ttl f.retransmitted n = (.error fault, w₁) ∧
          s.transmit w' ttl f.retransmitted f.mailbox = (.error fault, w₁')) ∨
        ∃ d, d.flight = f ∧
          s.transmit w ttl f.retransmitted n = (.ok (d.later x.delay n), w₁) ∧
          s.transmit w' ttl f.retransmitted f.mailbox = (.ok d, w₁')) := by
  obtain ⟨refused, w₁, w₁', hset, hset', h₁⟩ := both (h.setTtl ttl.toNat)
  have hlow : w₁ = (w.setTtl ttl.toNat).2 := by rw [hset]
  have hlow' : w₁' = (w'.setTtl ttl.toNat).2 := by rw [hset']
  have hnow : w₁.now = w.now := by rw [hlow]; rfl
  have hnow' : w₁'.now = w'.now := by rw [hlow']; rfl
  have hkept : w₁.withRegistry (w₁.engine.registry.restamp s.token w₁.now
      (w₁.now + s.hopTimeout)).2 = w₁ := by
    rw [hnow, show w₁.engine.registry = w.engine.registry by rw [hlow]; rfl, hstamp, hlow]
    rfl
  have hkept' : w₁'.withRegistry (w₁'.engine.registry.restamp s.token w₁'.now
      (w₁'.now + s.hopTimeout)).2 = w₁' := by
    rw [hnow', show w₁'.engine.registry = w'.engine.registry by rw [hlow']; rfl, hstamp', hlow']
    rfl
  simp only [Sender.transmit, hset, hset']
  cases refused with
  | some fault => exact ⟨w₁, w₁', h₁, .inl ⟨fault, rfl, rfl⟩⟩
  | none =>
      simp only [hkept, hkept']
      have h₂ := h₁.catchUp Registry.Twin.steady
      have htime : w₁.catchUp.now = w'.now + x.delay :=
        w₁.lapse_catchUp.now.trans (hnow.trans h.now)
      have htime' : w₁'.catchUp.now = w'.now := w₁'.lapse_catchUp.now.trans hnow'
      have hwrite : w₁.catchUp.connection.behaviour.write w₁.catchUp.connection.ttl =
          w₁'.catchUp.connection.behaviour.write w₁'.catchUp.connection.ttl := by
        rw [h₂.connection.behaviour, h₂.connection.ttl]
      simp only [hwrite]
      generalize w₁'.catchUp.connection.behaviour.write w₁'.catchUp.connection.ttl = write
      cases write.refusal with
      | some fault => exact ⟨_, _, h₂, .inl ⟨fault, rfl, rfl⟩⟩
      | none =>
          refine ⟨_, _, h₂.ping (Payload.bytes s.serial ttl), .inr
            ⟨⟨f, write.pause.isSome, w'.now + write.takes, write.failure⟩, rfl, ?_, ?_⟩⟩
          · rw [htime, hnow, h.now, hf]
            simp only [Departure.later, Flight.later, Nat.add_right_comm _ x.delay]
          · rw [htime', hnow', ← hf]

theorem launch (h : Twin x (Registry.Twin s.flow x.delay n none) w w') (ttl : UInt8) :
    (∃ fault w₁ w₁', s.launch w ttl = (.error (.fault fault), s.next, w₁) ∧
      s.launch w' ttl = (.error (.fault fault), s.next, w₁') ∧
      Twin x (Registry.Twin s.flow x.delay n none) w₁ w₁') ∨
    ∃ m d w₁ w₁', s.launch w ttl = (.ok (d.later x.delay m), s.next, w₁) ∧
      s.launch w' ttl = (.ok d, s.next, w₁') ∧
      Twin x (Registry.Twin s.flow x.delay m (some d.flight)) w₁ w₁' := by
  obtain ⟨info, w₁, w₁', hasked, hasked', h₁⟩ := both (h.statistics Registry.Twin.steady)
  obtain ⟨m, m', k, k', hr, hr', hstamp, hstamp', htwin⟩ :=
    reserve h₁.registry ttl w₁'.now (Sender.attempts - 1)
  rw [← h₁.now] at hr hstamp
  let f : Flight := ⟨s.next.token, ttl, w₁'.now, w₁'.now + s.hopTimeout,
    Payload.bytes s.next.serial ttl, Sender.retransmitted info, m'⟩
  have hready : Twin x (Registry.Twin s.flow x.delay m (some f)) (w₁.withRegistry k)
      (w₁'.withRegistry k') := h₁.withRegistry (htwin _ _)
  obtain ⟨w₂, w₂', h₂, ⟨fault, hsent, hsent'⟩ | ⟨d, hd, hsent, hsent'⟩⟩ :=
    transmit (s := s.next) rfl hready hstamp hstamp'
  · exact .inl ⟨fault, _, _, Sender.launch_of_transmit hasked hr hsent,
      Sender.launch_of_transmit hasked' hr' hsent', (h₂.setTtl s.next.defaultTtl).2.forget n⟩
  · exact .inr ⟨m, d, _, _, Sender.launch_of_transmit hasked hr hsent,
      Sender.launch_of_transmit hasked' hr' hsent', hd ▸ h₂⟩

theorem land {d : Departure} (h : Twin x (Registry.Twin flow x.delay n (some d.flight)) w w')
    (s : Sender) (m : Nat) :
    (∃ fault w₁ w₁', s.land w (d.later x.delay n) = (.error fault, w₁) ∧
      s.land w' d = (.error fault, w₁') ∧ Twin x (Registry.Twin flow x.delay m none) w₁ w₁') ∨
    ∃ w₁ w₁', s.land w (d.later x.delay n) = (.ok (d.flight.later x.delay n), w₁) ∧
      s.land w' d = (.ok d.flight, w₁') ∧
      Twin x (Registry.Twin flow x.delay n (some d.flight)) w₁ w₁' := by
  have hfirst : Twin x (Registry.Twin flow x.delay n (some d.flight))
      (if d.pauses then w.catchUp else w) (if d.pauses then w'.catchUp else w') := by
    split
    · exact h.catchUp Registry.Twin.steady
    · exact h
  obtain ⟨fault, w₁, w₁', hset, hset', h₁⟩ := both (hfirst.setTtl s.defaultTtl)
  simp only [Sender.land, Sender.restore]
  rw [show (d.later x.delay n).pauses = d.pauses from rfl,
    show (d.later x.delay n).failure = d.failure from rfl]
  simp only [hset, hset']
  cases d.failure with
  | some failure => exact .inl ⟨failure, _, _, rfl, rfl, h₁.forget m⟩
  | none =>
      cases fault with
      | some fault => exact .inl ⟨fault, _, _, rfl, rfl, h₁.forget m⟩
      | none => exact .inr ⟨_, _, rfl, rfl, h₁⟩

theorem readSignals (h : Twin x R w w') (n : Nat) (f : Flight) (signals : List Signal) :
    (World.readSignals (f.later x.delay n) signals w).1 = (World.readSignals f signals w').1 ∧
      Twin x R (World.readSignals (f.later x.delay n) signals w).2
        (World.readSignals f signals w').2 := by
  have hleave : ∀ {w w' : World} (left : List Signal), Twin x R w w' →
      Twin x R { w with connection := { w.connection with inbox := left } }
        { w' with connection := { w'.connection with inbox := left } } :=
    fun left h => h.withConnection (h.connection.withInbox left)
  induction signals generalizing w w' with
  | nil => exact ⟨rfl, hleave [] h⟩
  | cons signal rest ih =>
      cases signal with
      | closed => exact ⟨rfl, hleave rest h⟩
      | pong payload =>
          simp only [World.readSignals]
          rw [show (f.later x.delay n).payload = f.payload from rfl,
            show (f.later x.delay n).retransmitted = f.retransmitted from rfl]
          split
          · obtain ⟨answer, w₁, w₁', hasked, hasked', h₁⟩ := both h.query
            simp only [hasked, hasked']
            cases answer with
            | error fault => exact ih h₁
            | ok info =>
                simp only
                split
                · exact ⟨rfl, hleave rest h₁⟩
                · exact ih h₁
          · exact ih h

theorem listen (h : Twin x R w w') (hr : Registry.Steady x.delay R) (n : Nat) (f : Flight) :
    (w.listen (f.later x.delay n)).1 = (w'.listen f).1 ∧
      Twin x R (w.listen (f.later x.delay n)).2 (w'.listen f).2 := by
  have h₁ := h.catchUp hr
  rw [World.listen, World.listen, h₁.connection.inbox]
  exact h₁.readSignals n f _

end World.Twin

end InbandTrace
