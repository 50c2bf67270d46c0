import InbandTrace.Proofs.Path.Probe

namespace InbandTrace

namespace Crossing

inductive Answer (x : Crossing) (f : Flight) : List (Span × Event) → Hop → Prop where
  | silent : Answer x f [] (.timedOut f.ttl)
  | routed {data : Packet.Bytes} {router : Net.Ip} {kind : ReplyKind} {delay : Span} {left : UInt8}
      (hparse : Packet.Reply.ofDatagram data router = .ok ⟨router, kind, f.token, left⟩) :
      Answer x f [(delay, .packet data router)]
        (if delay < x.timeout then .resolved f.ttl router delay kind else .timedOut f.ttl)
  | echoed {delay : Span} :
      Answer x f [(delay, .pong f.payload)]
        (if delay ≤ x.timeout then .resolved f.ttl x.target delay .destination
          else .timedOut f.ttl)

theorem answer (x : Crossing) (sentAt : Instant) (serial : Nat) (ttl : UInt8) (n : Nat) :
    x.Answer (x.flight sentAt serial ttl n) (x.reactions (x.flight sentAt serial ttl n))
      (x.hop ttl) := by
  unfold reactions Path.reactions hop Path.hop
  cases hrouter : x.path.router? ttl.toNat with
  | none =>
      simp only [flight, hrouter]
      cases x.path.echo with
      | none => exact .silent
      | some delay => exact .echoed
  | some router =>
      simp only [flight, hrouter]
      cases router with
      | silent => exact .silent
      | answering address code delay =>
          obtain ⟨data, hquoting, hparse⟩ := x.ofDatagram_quoting address code serial ttl
          simp only [List.map_cons, List.map_nil, hquoting]
          exact .routed hparse

end Crossing

namespace World.Calm

variable {x : Crossing} {now sentAt : Instant} {k n : Nat} {ttl : UInt8} {w : World}

theorem readSignals_stale {signals : List Signal} (hall : ∀ s ∈ signals, s.Late k)
    (hmax : k + 1 ≤ 96) (w : World) :
    readSignals (x.flight sentAt (k + 1) ttl n) signals w =
      (.nothing, { w with connection := { w.connection with inbox := [] } }) := by
  induction signals with
  | nil => rfl
  | cons s rest ih =>
      have hfirst := hall s List.mem_cons_self
      cases s with
      | closed => exact hfirst.elim
      | pong payload =>
          have hne : payload ≠ (x.flight sentAt (k + 1) ttl n).payload :=
            hfirst.ne (Nat.lt_succ_self k) hmax
          simp only [readSignals, if_neg hne]
          exact ih fun s' hs' => hall s' (List.mem_cons_of_mem _ hs')

theorem readSignals_echoed (hx : x.Fair) {V : Registry → Prop} {signals : List Signal}
    (hall : ∀ s ∈ signals, s.Late (k + 1))
    (hecho : .pong (x.flight sentAt (k + 1) ttl n).payload ∈ signals)
    (h : Calm x now (k + 1) V w) :
    ∃ w', readSignals (x.flight sentAt (k + 1) ttl n) signals w = (.echoed, w') ∧
      Calm x now (k + 1) V w' := by
  induction signals generalizing w with
  | nil => cases hecho
  | cons s rest ih =>
      have hrest : ∀ s' ∈ rest, s'.Late (k + 1) :=
        fun s' hs' => hall s' (List.mem_cons_of_mem _ hs')
      have hfirst := hall s List.mem_cons_self
      cases s with
      | closed => exact hfirst.elim
      | pong payload =>
          by_cases hsame : payload = (x.flight sentAt (k + 1) ttl n).payload
          · obtain ⟨w₁, hquery, hasked, -⟩ := h.query hx
            have hzero : x.info.retransmitted = (x.flight sentAt (k + 1) ttl n).retransmitted := rfl
            simp only [readSignals, if_pos hsame]
            rw [hquery]
            simp only [if_pos hzero]
            exact ⟨_, rfl, hasked.now, hasked.engine, hasked.registry, hasked.behaviour,
              hasked.counters, hasked.fault, hasked.cancelled, hrest⟩
          · simp only [readSignals, if_neg hsame]
            refine ih hrest ?_ h
            rcases List.mem_cons.mp hecho with heq | hin
            · simp only [Signal.pong.injEq] at heq
              exact absurd heq.symm hsame
            · exact hin

theorem listen_nothing {V : Registry → Prop} (h : Calm x now k V w.catchUp) (hmax : k + 1 ≤ 96)
    (sentAt : Instant) (ttl : UInt8) (n : Nat) :
    ∃ w', w.listen (x.flight sentAt (k + 1) ttl n) = (.nothing, w') ∧ Calm x now k V w' := by
  refine ⟨_, readSignals_stale h.inbox hmax _, h.now, h.engine, h.registry, h.behaviour,
    h.counters, h.fault, h.cancelled, ?_⟩
  intro s hs
  cases hs

variable (hx : x.Fair) (h : Calm x now k (x.Waits (x.flight sentAt (k + 1) ttl n)) w)
  (hord : w.connection.agenda.Ordered) (hmax : k + 1 ≤ 96)

include h hord hmax

theorem listen_routed {data : Packet.Bytes} {router : Net.Ip} {kind : ReplyKind} {delay : Span}
    {left : UInt8}
    (hparse : Packet.Reply.ofDatagram data router = .ok ⟨router, kind, x.token (k + 1), left⟩)
    (hall : ∀ y ∈ w.connection.agenda, x.Stray k y.2 ∨ y = (sentAt + delay, .packet data router))
    (hin : (sentAt + delay, Event.packet data router) ∈ w.connection.agenda)
    (hdue : sentAt + delay ≤ now) :
    ∃ w', w.listen (x.flight sentAt (k + 1) ttl n) = (.nothing, w') ∧
      Calm x now k (x.Holds (x.flight sentAt (k + 1) ttl n) (.resolved ttl router delay kind))
        w' := by
  have hkeep : ∀ y ∈ w.connection.agenda, y.1 ≤ now → ∀ v,
      Calm x now k (x.Holds (x.flight sentAt (k + 1) ttl n) (.resolved ttl router delay kind)) v →
      Calm x now k (x.Holds (x.flight sentAt (k + 1) ttl n) (.resolved ttl router delay kind))
        (v.happen y.1 y.2) := by
    intro y hy _ v hv
    rcases hall y hy with hstray | rfl
    · exact hv.happen_stray (x.stable_answered k) (Nat.le_refl k) y.1 hstray
    · refine hv.happen_packet ?_
      rw [Registry.dispatch_of_not_contains hparse (hv.registry.contains_of_under rfl (by simp))]
      exact hv.registry
  have hcome : ∀ v, Calm x now k (x.Waits (x.flight sentAt (k + 1) ttl n)) v →
      Calm x now k (x.Holds (x.flight sentAt (k + 1) ttl n) (.resolved ttl router delay kind))
        (v.happen (sentAt + delay) (.packet data router)) := by
    intro v hv
    refine hv.happen_packet ?_
    have hwatched : v.engine.registry.Watched x.flow x.opened
        (x.entry sentAt (k + 1) ttl n).mailbox [x.entry sentAt (k + 1) ttl n] .waiting :=
      hv.registry
    have hanswered := hwatched.answered hparse rfl (sentAt + delay)
    simp only [Crossing.entry, Nat.add_sub_cancel_left] at hanswered
    exact hanswered
  have hcaught : Calm x now k
      (x.Holds (x.flight sentAt (k + 1) ttl n) (.resolved ttl router delay kind)) w.catchUp := by
    refine settleAgenda_until hord hin hdue h.now ?_ hkeep hcome (fun v a hv => hv.withAgenda a) h
    intro y hy hle v hv
    rcases hall y hy with hstray | rfl
    · have hstable := x.stable_waits sentAt (Nat.lt_succ_self k) hmax ttl n
      exact .inl (hv.happen_stray hstable (Nat.le_refl k) y.1 hstray)
    · exact .inr (hcome v hv)
  exact hcaught.listen_nothing hmax sentAt ttl n

include hx

theorem listen_echoed {delay : Span}
    (hall : ∀ y ∈ w.connection.agenda, x.Stray k y.2 ∨
      y = (sentAt + delay, .pong (Payload.bytes (k + 1).toUInt16 ttl)))
    (hin : (sentAt + delay, Event.pong (Payload.bytes (k + 1).toUInt16 ttl)) ∈
      w.connection.agenda)
    (hdue : sentAt + delay ≤ now) :
    ∃ w', w.listen (x.flight sentAt (k + 1) ttl n) = (.echoed, w') ∧
      Calm x now (k + 1) (x.Waits (x.flight sentAt (k + 1) ttl n)) w' := by
  have hown : Crossing.LatePayload (k + 1) (Payload.bytes (k + 1).toUInt16 ttl) :=
    ⟨k + 1, ttl, by omega, Nat.le_refl _, rfl⟩
  have hstable := x.stable_waits sentAt (Nat.lt_succ_self k) hmax ttl n
  have hcalm : ∀ y ∈ w.connection.agenda, ∀ v,
      Calm x now (k + 1) (x.Waits (x.flight sentAt (k + 1) ttl n)) v →
      Calm x now (k + 1) (x.Waits (x.flight sentAt (k + 1) ttl n)) (v.happen y.1 y.2) := by
    intro y hy v hv
    rcases hall y hy with hstray | rfl
    · exact hv.happen_stray hstable (Nat.le_succ k) y.1 hstray
    · exact hv.happen_pong _ hown
  have hinbox : ∀ (v : World) (due : Instant) (e : Event) (s : Signal), s ∈ v.connection.inbox →
      s ∈ (v.happen due e).connection.inbox := by
    intro v due e s hs
    cases e with
    | pong payload => exact List.mem_append_left _ hs
    | close => exact List.mem_append_left _ hs
    | _ => exact hs
  have hcaught : Calm x now (k + 1) (x.Waits (x.flight sentAt (k + 1) ttl n)) w.catchUp ∧
      .pong (Payload.bytes (k + 1).toUInt16 ttl) ∈ w.catchUp.connection.inbox := by
    refine settleAgenda_until
      (P := Calm x now (k + 1) (x.Waits (x.flight sentAt (k + 1) ttl n)))
      (Q := fun v => Calm x now (k + 1) (x.Waits (x.flight sentAt (k + 1) ttl n)) v ∧
        .pong (Payload.bytes (k + 1).toUInt16 ttl) ∈ v.connection.inbox)
      hord hin hdue h.now ?_ ?_ ?_ ?_ (h.mono (Nat.le_succ k))
    · intro y hy _ v hv
      exact .inl (hcalm y hy v hv)
    · intro y hy _ v hv
      exact ⟨hcalm y hy v hv.1, hinbox v _ _ _ hv.2⟩
    · intro v hv
      exact ⟨hv.happen_pong _ hown, List.mem_append_right _ (List.mem_singleton_self _)⟩
    · intro v a hv
      exact ⟨hv.1.withAgenda a, hv.2⟩
  exact readSignals_echoed hx hcaught.1.inbox hcaught.2 hcaught.1

end World.Calm

end InbandTrace
