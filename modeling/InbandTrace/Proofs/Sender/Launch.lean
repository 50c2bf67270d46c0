import InbandTrace.Proofs.Engine.Evolution
import Mathlib.Logic.Function.Iterate
import InbandTrace.Sender.Basic

namespace InbandTrace

theorem Net.Socket.ip_canonical (s : Socket) : s.canonical.ip = s.ip.canonical := by
  unfold canonical
  cases s.ip.canonical with
  | v4 address => rfl
  | v6 address => rfl

namespace Sender

open World

theorem flowOf_of_v4 {b : Behaviour} {src dst : Net.Socket} {address : Net.Ipv4}
    (hsrc : b.localAddress = .ok src) (hdst : b.peerAddress 0 = .ok dst)
    (hv4 : dst.ip.canonical = .v4 address) : flowOf b = .ok (Flow.between src dst) := by
  have hip : (Flow.between src dst).dst.ip = .v4 address := dst.ip_canonical.trans hv4
  simp only [flowOf, hsrc, hdst, orFault, bind, Except.bind, hip]
  rfl

def next (s : Sender) : Sender := { s with serial := s.serial + 1 }

theorem reserve_of_free {ttl : UInt8} {now : Instant} {more m : Nat} {s : Sender}
    {r r' : Registry} (h : r.register s.next.token ttl now (now + s.hopTimeout) = some (m, r')) :
    reserve ttl now more s r = (s.next, .ok (m, r')) := by
  have h' : r.register (Sender.token { s with serial := s.serial + 1 }) ttl now
    (now + s.hopTimeout) = some (m, r') := h
  cases more <;> simp [reserve, h', next]

theorem reserve_zero_of_taken {ttl : UInt8} {now : Instant} {s : Sender} {r : Registry}
    (h : r.register s.next.token ttl now (now + s.hopTimeout) = none) :
    reserve ttl now 0 s r = (s.next, .error s.next.token) := by
  have h' : r.register (Sender.token { s with serial := s.serial + 1 }) ttl now
    (now + s.hopTimeout) = none := h
  simp [reserve, h', next]

theorem reserve_succ_of_taken {ttl : UInt8} {now : Instant} {more : Nat} {s : Sender}
    {r : Registry} (h : r.register s.next.token ttl now (now + s.hopTimeout) = none) :
    reserve ttl now (more + 1) s r = reserve ttl now more s.next r := by
  have h' : r.register (Sender.token { s with serial := s.serial + 1 }) ttl now
    (now + s.hopTimeout) = none := h
  simp [reserve, h', next]

theorem reserve_ok {ttl : UInt8} {now : Instant} {more m : Nat} {s s' : Sender} {r r' : Registry}
    (h : reserve ttl now more s r = (s', .ok (m, r'))) :
    s' = { s with serial := s'.serial } ∧
      r.register s'.token ttl now (now + s.hopTimeout) = some (m, r') := by
  induction more generalizing s with
  | zero =>
      cases hr : r.register s.next.token ttl now (now + s.hopTimeout) with
      | none =>
          rw [reserve_zero_of_taken hr] at h
          cases h
      | some reserved =>
          rw [reserve_of_free hr] at h
          cases h
          exact ⟨rfl, hr⟩
  | succ more ih =>
      cases hr : r.register s.next.token ttl now (now + s.hopTimeout) with
      | none =>
          rw [reserve_succ_of_taken hr] at h
          obtain ⟨hs, hreg⟩ := ih h
          exact ⟨hs, hreg⟩
      | some reserved =>
          rw [reserve_of_free hr] at h
          cases h
          exact ⟨rfl, hr⟩

theorem reserve_error {ttl : UInt8} {now : Instant} {more : Nat} {s s' : Sender} {r : Registry}
    {token : Token} (h : reserve ttl now more s r = (s', .error token)) :
    ∀ i ≤ more, r.contains (next^[i + 1] s).token := by
  induction more generalizing s with
  | zero =>
      cases hr : r.register s.next.token ttl now (now + s.hopTimeout) with
      | none =>
          intro i hi
          rw [Nat.le_zero.mp hi]
          exact Registry.register_eq_none_iff.mp hr
      | some reserved =>
          rw [reserve_of_free hr] at h
          cases h
  | succ more ih =>
      cases hr : r.register s.next.token ttl now (now + s.hopTimeout) with
      | none =>
          rw [reserve_succ_of_taken hr] at h
          intro i hi
          cases i with
          | zero => exact Registry.register_eq_none_iff.mp hr
          | succ i => exact ih h i (Nat.le_of_succ_le_succ hi)
      | some reserved =>
          rw [reserve_of_free hr] at h
          cases h

theorem reserve_sender (ttl : UInt8) (now : Instant) (more : Nat) (s : Sender) (r : Registry) :
    (reserve ttl now more s r).1 = { s with serial := (reserve ttl now more s r).1.serial } := by
  induction more generalizing s with
  | zero =>
      cases hr : r.register s.next.token ttl now (now + s.hopTimeout) with
      | none => rw [reserve_zero_of_taken hr, next]
      | some reserved => rw [reserve_of_free hr, next]
  | succ more ih =>
      cases hr : r.register s.next.token ttl now (now + s.hopTimeout) with
      | none =>
          rw [reserve_succ_of_taken hr]
          exact ih s.next
      | some reserved => rw [reserve_of_free hr, next]

theorem sender_of_reserve {ttl : UInt8} {now : Instant} {more : Nat} {s s' : Sender}
    {r : Registry} {answer : Except Token (Nat × Registry)}
    (h : reserve ttl now more s r = (s', answer)) : s' = { s with serial := s'.serial } := by
  have hs := reserve_sender ttl now more s r
  rwa [h] at hs

variable {P : Registry.Operation → Prop}

theorem transmit_ok {s : Sender} {w w' : World} {ttl : UInt8} {n m : Nat} {d : Departure}
    (ha : w.Allowed P) (hp : P (.restamp s.token w.now (w.now + s.hopTimeout)))
    (h : s.transmit w ttl n m = (.ok d, w')) :
    ∃ w₁, Evolves P w w₁ ∧ w₁.connection.ttl = ttl.toNat ∧
      d.flight = ⟨s.token, ttl, w.now, w.now + s.hopTimeout, Payload.bytes s.serial ttl, n, m⟩ ∧
      w' = w₁.ping (Payload.bytes s.serial ttl) := by
  simp only [transmit] at h
  split at h
  · cases h
  · rename_i w₀ hset
    have hlow : w₀ = (w.setTtl ttl.toNat).2 := by rw [hset]
    have hev : Evolves P w w₀ := hlow ▸ w.evolves_setTtl ttl.toNat
    rw [← hev.now] at hp
    have hev₁ := hev.trans (w₀.evolves_restamp _ _ _ hp)
    have hev₂ := hev₁.trans (evolves_catchUp _ (hev₁.allowed ha))
    split at h
    · cases h
    · cases h
      refine ⟨_, hev₂, ?_, ?_, rfl⟩
      · rw [ttl_catchUp]
        change w₀.connection.ttl = ttl.toNat
        rw [hlow]
        exact ttl_setTtl (by rw [hset])
      · rw [hev₂.now, hev.now]

theorem transmit_error {s : Sender} {w w' : World} {ttl : UInt8} {n m : Nat} {fault : Fault}
    (ha : w.Allowed P) (hp : P (.restamp s.token w.now (w.now + s.hopTimeout)))
    (h : s.transmit w ttl n m = (.error fault, w')) : Evolves P w w' := by
  simp only [transmit] at h
  split at h
  · rename_i w₀ hset
    cases h
    have hlow : w' = (w.setTtl ttl.toNat).2 := by rw [hset]
    exact hlow ▸ w.evolves_setTtl ttl.toNat
  · rename_i w₀ hset
    have hlow : w₀ = (w.setTtl ttl.toNat).2 := by rw [hset]
    have hev : Evolves P w w₀ := hlow ▸ w.evolves_setTtl ttl.toNat
    rw [← hev.now] at hp
    have hev₁ := hev.trans (w₀.evolves_restamp _ _ _ hp)
    split at h
    · cases h
      exact hev₁.trans (evolves_catchUp _ (hev₁.allowed ha))
    · cases h

/-- A probe is on its way: it has been registered, and nothing after that was but evolution and
the ping itself. -/
structure Launched (P : Registry.Operation → Prop) (s : Sender) (w : World) (ttl : UInt8)
    (d : Departure) (s' : Sender) (w₀ : World) (r : Registry) (w₁ w' : World) : Prop where
  sender : s' = { s with serial := s'.serial }
  before : Evolves P w w₀
  registered : w₀.engine.registry.register s'.token ttl w.now (w.now + s.hopTimeout) =
    some (d.flight.mailbox, r)
  after : Evolves P (w₀.withRegistry r) w₁
  lowered : w₁.connection.ttl = ttl.toNat
  pinged : w' = w₁.ping d.flight.payload
  token : d.flight.token = s'.token
  probed : d.flight.ttl = ttl
  sentAt : d.flight.sentAt = w.now
  deadline : d.flight.deadline = w.now + s.hopTimeout
  payload : d.flight.payload = Payload.bytes s'.serial ttl

theorem launch_ok {s s' : Sender} {w w' : World} {ttl : UInt8} {d : Departure} (ha : w.Allowed P)
    (h : s.launch w ttl = (.ok d, s', w'))
    (hp : P (.restamp s'.token w.now (w.now + s.hopTimeout))) :
    ∃ w₀ r w₁, Launched P s w ttl d s' w₀ r w₁ w' := by
  simp only [launch] at h
  split at h
  · cases h
  · rename_i s₁ m r hres
    obtain ⟨hs, hreg⟩ := reserve_ok hres
    have hev := w.evolves_statistics ha
    split at h
    · rename_i d₁ w₁ hsend
      cases h
      have htime : s'.hopTimeout = s.hopTimeout := by rw [hs]
      have hnow : (w.statistics.2.withRegistry r).now = w.now := hev.now
      have hallow : (w.statistics.2.withRegistry r).Allowed P := hev.allowed ha
      obtain ⟨w₂, hev₂, hlow, hflight, hping⟩ :=
        transmit_ok hallow (by rw [hnow, htime]; exact hp) hsend
      rw [hnow, htime] at hflight
      refine ⟨_, r, w₂, hs, hev, ?_, hev₂, hlow, ?_, ?_, ?_, ?_, ?_, ?_⟩
      · rw [hev.now] at hreg
        rw [hflight, hreg]
      · rw [hping, hflight]
      all_goals rw [hflight]
    · cases h

namespace Launched

variable {s s' : Sender} {w w₀ w₁ w' : World} {ttl : UInt8} {d : Departure} {r : Registry}

theorem evolves (h : Launched P s w ttl d s' w₀ r w₁ w')
    (hp : P (.register s'.token ttl w.now (w.now + s.hopTimeout))) : Evolves P w w₁ :=
  (h.before.trans (w₀.evolves_register h.registered hp)).trans h.after

theorem assigned (h : Launched P s w ttl d s' w₀ r w₁ w') (hs : w.engine.registry.Sound)
    {Q : Entry → Prop} (hk : ∀ op, P op → op.Keeps Q)
    (hq : Q ⟨s'.token, ttl, w.now, w.now + s.hopTimeout, d.flight.mailbox⟩) :
    w'.engine.registry.Assigned d.flight.mailbox Q := by
  have hfirst : (w₀.withRegistry r).engine.registry.Assigned d.flight.mailbox Q :=
    (h.before.sound hs).assigned h.registered hq
  rw [h.pinged]
  exact h.after.assigned hk hfirst

end Launched

theorem launch_error {s s' : Sender} {w w' : World} {ttl : UInt8} {e : TraceError}
    (hP : ∀ op, P op) (h : s.launch w ttl = (.error e, s', w')) :
    Evolves P w w' ∧ s' = { s with serial := s'.serial } ∧
      ((∃ token, e = .tokenCollision token) ∨ ∃ fault, e = .fault fault) := by
  have ha : w.Allowed P := fun _ _ _ op _ => hP op
  have hev := w.evolves_statistics ha
  simp only [launch] at h
  split at h
  · rename_i s₁ token hres
    cases h
    exact ⟨hev, sender_of_reserve hres, .inl ⟨token, rfl⟩⟩
  · rename_i s₁ m r hres
    obtain ⟨hs, hreg⟩ := reserve_ok hres
    split at h
    · cases h
    · rename_i fault w₁ hsend
      cases h
      have hgive := (w.statistics.2).evolves_register hreg (hP _)
      have htry := transmit_error (fun _ _ _ op _ => hP op) (hP _) hsend
      refine ⟨?_, hs, .inr ⟨fault, rfl⟩⟩
      refine (hev.trans (hgive.trans htry)).trans ?_
      exact (evolves_setTtl _ _).trans (evolves_forget _ (hP _) (hP _))

theorem land_ok {s : Sender} {w w' : World} {d : Departure} {f : Flight}
    (h : s.land w d = (.ok f, w')) : f = d.flight := by
  simp only [land] at h
  split at h
  · cases h
    rfl
  · cases h
  · cases h

theorem evolves_land (s : Sender) (w : World) (d : Departure) (ha : w.Allowed P)
    (hr : P (.release d.flight.token)) (hd : P (.drop d.flight.mailbox)) :
    Evolves P w (s.land w d).2 := by
  have hfirst : Evolves P w (if d.pauses then w.catchUp else w) := by
    split
    · exact w.evolves_catchUp ha
    · exact .refl w
  have hput := hfirst.trans (evolves_setTtl _ s.defaultTtl)
  simp only [land, restore]
  split
  · exact hput
  · exact hput.trans (evolves_forget _ hr hd)
  · exact hput.trans (evolves_forget _ hr hd)

end Sender

end InbandTrace
