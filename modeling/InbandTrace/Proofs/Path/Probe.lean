import InbandTrace.Proofs.Path.Calm

namespace InbandTrace

namespace Crossing

variable (x : Crossing)

def entry (sentAt : Instant) (serial : Nat) (ttl : UInt8) (mailbox : Nat) : Entry :=
  ⟨x.token serial, ttl, sentAt, sentAt + x.timeout, mailbox⟩

def flight (sentAt : Instant) (serial : Nat) (ttl : UInt8) (mailbox : Nat) : Flight :=
  ⟨x.token serial, ttl, sentAt, sentAt + x.timeout, Payload.bytes serial.toUInt16 ttl, 0, mailbox⟩

def Waits (f : Flight) (r : Registry) : Prop :=
  r.Watched x.flow x.opened f.mailbox [⟨f.token, f.ttl, f.sentAt, f.deadline, f.mailbox⟩] .waiting

def Holds (f : Flight) (hop : Hop) (r : Registry) : Prop :=
  r.Watched x.flow x.opened f.mailbox [] (.holding hop)

def reactions (f : Flight) : List (Span × Event) :=
  (x.path.reactions x.flow x.info f.ttl.toNat).map fun r => (r.1, r.2 f.payload)

theorem stable_waits (sentAt : Instant) {serial k : Nat} (hk : serial < k) (hmax : k ≤ 96)
    (ttl : UInt8) (n : Nat) : x.Stable serial (x.Waits (x.flight sentAt k ttl n)) := by
  refine x.stable_watched (k := k) ?_ hk hmax
  intro e he
  rw [List.mem_singleton.mp he]
  rfl

end Crossing

namespace World.Calm

variable {x : Crossing} {now : Instant} {k : Nat} {w : World}

theorem transmit (hx : x.Fair) {n : Nat} {ttl : UInt8}
    (h : Calm x now k (x.Waits (x.flight now (k + 1) ttl n)) w)
    (hall : ∀ y ∈ w.connection.agenda, x.Stray k y.2) (hmax : k + 1 ≤ 96) :
    ∃ w', (x.sender (k + 1)).transmit w ttl 0 n =
        (.ok ⟨x.flight now (k + 1) ttl n, false, now, none⟩, w') ∧
      Calm x now k (x.Waits (x.flight now (k + 1) ttl n)) w' ∧
      ∃ rest, rest <:+ w.connection.agenda ∧ w'.connection.agenda =
        Agenda.scheduleAll now (x.reactions (x.flight now (k + 1) ttl n)) rest := by
  obtain ⟨w₁, hset, hcalm, hlow, hagenda⟩ := h.setTtl hx ttl.toNat
  have hstamped : Calm x now k (x.Waits (x.flight now (k + 1) ttl n))
      (w₁.withRegistry (w₁.engine.registry.restamp (x.token (k + 1)) now (now + x.timeout)).2) :=
    hcalm.withRegistry (hcalm.registry.restamped now (now + x.timeout))
  generalize hr : (w₁.engine.registry.restamp (x.token (k + 1)) now (now + x.timeout)).2 = r
    at hstamped
  have hcaught := hstamped.catchUp (x.stable_waits now (Nat.lt_succ_self k) hmax ttl n)
    (Nat.le_refl k) fun y hy _ => hall y (hagenda ▸ hy)
  have hwrite : (w₁.withRegistry r).catchUp.connection.behaviour.write
      (w₁.withRegistry r).catchUp.connection.ttl =
        { reactions := x.path.reactions x.flow x.info ttl.toNat } := by
    have hlow' : (w₁.withRegistry r).connection.ttl = ttl.toNat := hlow
    rw [hcaught.behaviour, hx.write, ttl_catchUp, hlow']
  refine ⟨(w₁.withRegistry r).catchUp.ping (Payload.bytes (k + 1).toUInt16 ttl), ?_, ?_, ?_⟩
  · simp only [Sender.transmit, hset, hcalm.now, x.token_sender, x.hopTimeout_sender,
      x.serial_sender, hr, hwrite, hcaught.now]
    rfl
  · exact ⟨hcaught.now, hcaught.engine, hcaught.registry, hcaught.behaviour, hcaught.counters,
      hcaught.fault, hcaught.cancelled, hcaught.inbox⟩
  · refine ⟨(w₁.withRegistry r).catchUp.connection.agenda, ?_, ?_⟩
    · rw [agenda_catchUp, ← hagenda]
      exact List.dropWhile_suffix _
    · simp only [ping, Connection.ping, hwrite, hcaught.now]
      rfl

theorem launch (hx : x.Fair) (h : Calm x now k (fun r => r.Clear x.flow x.opened) w)
    (hall : ∀ y ∈ w.connection.agenda, x.Stray k y.2) (hmax : k + 1 ≤ 96) (ttl : UInt8) :
    ∃ n w', (x.sender k).launch w ttl =
        (.ok ⟨x.flight now (k + 1) ttl n, false, now, none⟩, x.sender (k + 1), w') ∧
      Calm x now k (x.Waits (x.flight now (k + 1) ttl n)) w' ∧
      ∃ rest, rest <:+ w.connection.agenda ∧ w'.connection.agenda =
        Agenda.scheduleAll now (x.reactions (x.flight now (k + 1) ttl n)) rest := by
  obtain ⟨w₁, hstatistics, hasked, hsuffix, -⟩ := h.statistics hx (x.stable_clear k) hall
  have hflow : (x.token (k + 1)).flow = x.flow := rfl
  obtain ⟨n, r, hregister, hwatched⟩ :=
    hasked.registry.register hflow ttl now (now + x.timeout)
  have hreserve : Sender.reserve ttl now (Sender.attempts - 1) (x.sender k) w₁.engine.registry =
      (x.sender (k + 1), .ok (n, r)) := by
    rw [← x.next_sender]
    refine Sender.reserve_of_free ?_
    rw [x.next_sender]
    exact hregister
  have hwaits : Calm x now k (x.Waits (x.flight now (k + 1) ttl n)) (w₁.withRegistry r) :=
    hasked.withRegistry hwatched
  obtain ⟨w', hsend, hsent, rest, hrest, hagenda⟩ := hwaits.transmit hx
    (fun y hy => hall y (hsuffix.subset hy)) hmax
  refine ⟨n, w', ?_, hsent, rest, hrest.trans hsuffix, hagenda⟩
  simp only [Sender.launch, hstatistics, hasked.now, hreserve]
  rw [show x.info.retransmitted = 0 from rfl, hsend]

end World.Calm

end InbandTrace
