import InbandTrace.Proofs.Path.Crossing
import InbandTrace.Proofs.Trace.Turn

namespace InbandTrace

def Signal.Late (serial : Nat) : Signal → Prop
  | .pong payload => Crossing.LatePayload serial payload
  | .closed => False

/-- What keeps to a property of the registry while strangers and late answers come in. -/
structure Crossing.Stable (x : Crossing) (serial : Nat) (V : Registry → Prop) : Prop where
  foreign : ∀ r op, V r → op.Foreign x.flow x.opened → V (r.apply op).2
  late : ∀ r j, V r → 1 ≤ j → j ≤ serial → r.contains (x.token j) = false

namespace Crossing

variable (x : Crossing)

theorem stable_clear (serial : Nat) : x.Stable serial fun r => r.Clear x.flow x.opened :=
  ⟨fun _ _ h hop => h.foreign hop, fun _ _ h _ _ => h.not_contains rfl⟩

theorem stable_watched {n serial k : Nat} {entries : List Entry} {m : Mailbox}
    (hall : ∀ e ∈ entries, e.token = x.token k) (hk : serial < k) (hmax : k ≤ 96) :
    x.Stable serial fun r => r.Watched x.flow x.opened n entries m := by
  refine ⟨fun _ _ h hop => h.foreign hop, ?_⟩
  intro r j h hj hjs
  refine h.contains_of_under rfl ?_
  intro e he hsame
  rw [hall e he] at hsame
  exact x.token_ne hj (Nat.lt_of_le_of_lt hjs hk) hmax hsame.symm

theorem stable_answered {n : Nat} {m : Mailbox} (serial : Nat) :
    x.Stable serial fun r => r.Watched x.flow x.opened n [] m := by
  refine ⟨fun _ _ h hop => h.foreign hop, ?_⟩
  intro r j h _ _
  exact h.contains_of_under rfl (by simp)

end Crossing

namespace World

structure Calm (x : Crossing) (now : Instant) (serial : Nat) (V : Registry → Prop) (w : World) :
    Prop where
  now : w.now = now
  engine : w.engine = { x.engine with registry := w.engine.registry }
  registry : V w.engine.registry
  behaviour : w.connection.behaviour = x.behaviour
  counters : w.connection.counters = x.info
  fault : w.connection.fault = none
  cancelled : w.connection.cancelled = x.cancelled
  inbox : ∀ s ∈ w.connection.inbox, s.Late serial

def withAgenda (w : World) (agenda : Agenda) : World :=
  { w with connection := { w.connection with agenda := agenda } }

theorem settleAgenda_cons (y : Instant × Event) (rest : Agenda) (w : World) :
    settleAgenda (y :: rest) w =
      if y.1 ≤ w.now then settleAgenda rest (w.happen y.1 y.2) else w.withAgenda (y :: rest) := rfl

theorem settleAgenda_until {P Q : World → Prop} {now : Instant} {agenda : Agenda} {w : World}
    (hord : agenda.Ordered) {y : Instant × Event} (hy : y ∈ agenda) (hdue : y.1 ≤ now)
    (hnow : w.now = now)
    (hP : ∀ z ∈ agenda, z.1 ≤ now → ∀ v, P v → P (v.happen z.1 z.2) ∨ Q (v.happen z.1 z.2))
    (hQ : ∀ z ∈ agenda, z.1 ≤ now → ∀ v, Q v → Q (v.happen z.1 z.2))
    (hcome : ∀ v, P v → Q (v.happen y.1 y.2))
    (hset : ∀ v a, Q v → Q (v.withAgenda a)) (h : P w) : Q (settleAgenda agenda w) := by
  have hlast : ∀ (agenda : Agenda) (w : World), w.now = now →
      (∀ z ∈ agenda, z.1 ≤ now → ∀ v, Q v → Q (v.happen z.1 z.2)) → Q w →
      Q (settleAgenda agenda w) := by
    intro agenda
    induction agenda with
    | nil => exact fun w _ _ hw => hset w [] hw
    | cons z rest ih =>
        intro w hw hkeep hq
        rw [settleAgenda_cons, hw]
        split
        · rename_i hle
          refine ih _ (by rw [now_happen, hw]) ?_ (hkeep z List.mem_cons_self hle w hq)
          exact fun z' hz' => hkeep z' (List.mem_cons_of_mem _ hz')
        · exact hset w _ hq
  induction agenda generalizing w with
  | nil => cases hy
  | cons z rest ih =>
      have hz : z.1 ≤ now := by
        rcases List.mem_cons.mp hy with rfl | hin
        · exact hdue
        · exact Nat.le_trans ((List.pairwise_cons.mp hord).1 y hin) hdue
      have hkeep : ∀ z' ∈ rest, z'.1 ≤ now → ∀ v, Q v → Q (v.happen z'.1 z'.2) :=
        fun z' hz' => hQ z' (List.mem_cons_of_mem _ hz')
      have hthen : (w.happen z.1 z.2).now = now := by rw [now_happen, hnow]
      rw [settleAgenda_cons, hnow, if_pos hz]
      rcases List.mem_cons.mp hy with rfl | hin
      · exact hlast rest _ hthen hkeep (hcome w h)
      · rcases hP z List.mem_cons_self hz w h with hp | hq
        · exact ih (List.pairwise_cons.mp hord).2 hin hthen
            (fun z' hz' => hP z' (List.mem_cons_of_mem _ hz')) hkeep hp
        · exact hlast rest _ hthen hkeep hq

variable {x : Crossing} {now : Instant} {serial : Nat} {V : Registry → Prop}

namespace Calm

theorem mono {w : World} (h : Calm x now serial V w) {more : Nat} (hm : serial ≤ more) :
    Calm x now more V w := by
  refine { h with inbox := ?_ }
  intro s hs
  have hlate := h.inbox s hs
  cases s with
  | pong payload => exact hlate.mono hm
  | closed => exact hlate

theorem withRegistry {w : World} (h : Calm x now serial V w) {V' : Registry → Prop} {r : Registry}
    (hr : V' r) : Calm x now serial V' (w.withRegistry r) := by
  refine ⟨h.now, ?_, hr, h.behaviour, h.counters, h.fault, h.cancelled, h.inbox⟩
  simp only [World.withRegistry]
  rw [h.engine]

theorem withAgenda {w : World} (h : Calm x now serial V w) (agenda : Agenda) :
    Calm x now serial V (w.withAgenda agenda) :=
  ⟨h.now, h.engine, h.registry, h.behaviour, h.counters, h.fault, h.cancelled, h.inbox⟩

theorem note {w : World} (h : Calm x now serial V w) (due : Instant) (capture : Capture) :
    Calm x now serial V (w.note due capture) :=
  ⟨h.now, h.engine, h.registry, h.behaviour, h.counters, h.fault, h.cancelled, h.inbox⟩

theorem happen_packet {w : World} (h : Calm x now serial V w) {V' : Registry → Prop}
    {due : Instant} {data : Packet.Bytes} {source : Net.Ip}
    (hr : V' (w.engine.registry.dispatch data source due).2) :
    Calm x now serial V' (w.happen due (.packet data source)) :=
  (h.withRegistry hr).note due _

theorem happen_pong {w : World} (h : Calm x now serial V w) (due : Instant)
    {payload : List UInt8} (hp : Crossing.LatePayload serial payload) :
    Calm x now serial V (w.happen due (.pong payload)) := by
  refine ⟨h.now, h.engine, h.registry, h.behaviour, h.counters, h.fault, h.cancelled, ?_⟩
  intro s hs
  rcases List.mem_append.mp hs with hs | hs
  · exact h.inbox s hs
  · rw [List.mem_singleton.mp hs]
    exact hp

theorem happen_stray {w : World} (h : Calm x now serial V w) {k : Nat} (hV : x.Stable k V)
    (hk : k ≤ serial) (due : Instant) {e : Event} (he : x.Stray k e) :
    Calm x now serial V (w.happen due e) := by
  rcases he with hforeign | hlate
  · cases e with
    | packet data source =>
        exact h.happen_packet (hV.foreign _ (.packet data source due) h.registry hforeign)
    | registry op => exact h.withRegistry (hV.foreign _ op h.registry hforeign)
    | _ => exact hforeign.elim
  · cases e with
    | packet data source =>
        obtain ⟨reply, j, hparse, hj, hjk, htoken⟩ := hlate
        have hfree := hV.late _ j h.registry hj hjk
        rw [← htoken] at hfree
        refine h.happen_packet ?_
        rw [Registry.dispatch_of_not_contains hparse hfree]
        exact h.registry
    | pong payload => exact h.happen_pong due (hlate.mono hk)
    | _ => exact hlate.elim

theorem settleAgenda {agenda : Agenda} {w : World} (h : Calm x now serial V w)
    (hall : ∀ y ∈ agenda, y.1 ≤ now → ∀ v, Calm x now serial V v →
      Calm x now serial V (v.happen y.1 y.2)) :
    Calm x now serial V (World.settleAgenda agenda w) := by
  induction agenda generalizing w with
  | nil => exact h.withAgenda []
  | cons y rest ih =>
      rw [settleAgenda_cons, h.now]
      split
      · rename_i hle
        exact ih (hall y List.mem_cons_self hle w h)
          fun z hz => hall z (List.mem_cons_of_mem _ hz)
      · exact h.withAgenda _

theorem catchUp {w : World} (h : Calm x now serial V w) {k : Nat} (hV : x.Stable k V)
    (hk : k ≤ serial) (hall : ∀ y ∈ w.connection.agenda, y.1 ≤ now → x.Stray k y.2) :
    Calm x now serial V w.catchUp :=
  h.settleAgenda fun y hy hle _ hv => hv.happen_stray hV hk y.1 (hall y hy hle)

variable (hx : x.Fair)

include hx

theorem query {w : World} (h : Calm x now serial V w) :
    ∃ w', w.query = (.ok x.info, w') ∧ Calm x now serial V w' ∧
      w'.connection.agenda = w.connection.agenda ∧ w'.connection.ttl = w.connection.ttl := by
  have hcounted : w.connection.behaviour.counted w.connection.queries w.connection.counters =
      x.info := by
    rw [h.behaviour, hx.counted, h.counters]
  have hfault : w.connection.fault.or
      (w.connection.behaviour.statisticsFault w.connection.queries) = none := by
    rw [h.fault, h.behaviour, hx.statisticsFault]
    rfl
  have hanswer : w.query.1 = .ok x.info := by
    simp only [World.query, Connection.query, hfault, hcounted]
  refine ⟨w.query.2, by rw [← hanswer], ?_, rfl, rfl⟩
  exact ⟨h.now, h.engine, h.registry, h.behaviour, hcounted, h.fault, h.cancelled, h.inbox⟩

theorem statistics {w : World} (h : Calm x now serial V w) (hV : x.Stable serial V)
    (hall : ∀ y ∈ w.connection.agenda, x.Stray serial y.2) :
    ∃ w', w.statistics = (.ok x.info, w') ∧ Calm x now serial V w' ∧
      w'.connection.agenda <:+ w.connection.agenda ∧ w'.connection.ttl = w.connection.ttl := by
  have hcaught := h.catchUp hV (Nat.le_refl serial) fun y hy _ => hall y hy
  obtain ⟨w', hquery, hasked, hagenda, httl⟩ := hcaught.query hx
  refine ⟨w', hquery, hasked, ?_, ?_⟩
  · rw [hagenda, agenda_catchUp]
    exact List.dropWhile_suffix _
  · rw [httl, ttl_catchUp]

theorem setTtl {w : World} (h : Calm x now serial V w) (ttl : Nat) :
    ∃ w', w.setTtl ttl = (none, w') ∧ Calm x now serial V w' ∧ w'.connection.ttl = ttl ∧
      w'.connection.agenda = w.connection.agenda := by
  have hset : w.connection.behaviour.setTtl w.connection.ttlCalls ttl = none := by
    rw [h.behaviour, hx.setTtl]
  refine ⟨{ w with connection := { w.connection with
      ttl := ttl
      ttlCalls := w.connection.ttlCalls + 1
      ttlSettings := w.connection.ttlSettings + 1 } }, ?_, ?_, rfl, rfl⟩
  · simp only [World.setTtl, Connection.setTtl, hset]
  · exact ⟨h.now, h.engine, h.registry, h.behaviour, h.counters, h.fault, h.cancelled, h.inbox⟩

end Calm

end World

end InbandTrace
