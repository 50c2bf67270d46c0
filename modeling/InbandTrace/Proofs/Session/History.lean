import InbandTrace.Session.Operation

namespace InbandTrace

namespace Session

def aim (s : Session) : Operation → SessionState
  | .begin => .probing s.firstTtl
  | .transition next => next
  | .record hop => if hop.status = .timeout then .hopTimedOut hop.ttl else .hopRecorded hop.ttl
  | .advance =>
      match s.settled? with
      | some ttl => s.following ttl
      | none => .completed
  | .abort => .aborted

def Operation.hop? : Operation → Option Hop
  | .record hop => some hop
  | _ => none

def refusal (s : Session) : Operation → SessionError
  | .record hop => .unexpectedHop s.state hop.ttl
  | op => .invalidTransition s.state (s.aim op)

def moved (s : Session) (op : Operation) : Session :=
  { s with state := s.aim op, hops := s.hops ++ op.hop?.toList }

theorem allows_aim_record (s : Session) (hop : Hop) :
    s.state.allows (s.aim (.record hop)) = true ↔ s.state = .awaitingResponse hop.ttl := by
  cases hs : s.state <;> by_cases ht : hop.status = .timeout <;>
    simp [aim, ht, SessionState.allows]

theorem awaited?_eq_some (s : Session) (ttl : UInt8) :
    s.awaited? = some ttl ↔ s.state = .awaitingResponse ttl := by
  cases hs : s.state <;> simp [awaited?, hs]

theorem settled?_eq_some (s : Session) (ttl : UInt8) :
    s.settled? = some ttl ↔ s.state = .hopRecorded ttl ∨ s.state = .hopTimedOut ttl := by
  cases hs : s.state <;> simp [settled?, hs]

theorem allows_completed (s : Session) :
    s.state.allows .completed = true ↔ s.settled?.isSome = true := by
  cases hs : s.state <;> simp [settled?, hs, SessionState.allows]

theorem apply_eq (s : Session) (op : Operation) :
    s.apply op =
      if s.state.allows (s.aim op) then .ok (s.moved op) else .error (s.refusal op) := by
  cases op with
  | begin => simp [apply, begin, transition, aim, moved, refusal, Operation.hop?]
  | transition next => simp [apply, transition, aim, moved, refusal, Operation.hop?]
  | record hop =>
      have hallow := s.allows_aim_record hop
      by_cases hs : s.state = .awaitingResponse hop.ttl
      · rw [if_pos (hallow.mpr hs)]
        simp [apply, record, (s.awaited?_eq_some hop.ttl).mpr hs, moved, aim, Operation.hop?]
      · have hnot : ¬s.awaited? = some hop.ttl := mt (s.awaited?_eq_some hop.ttl).mp hs
        simp [apply, record, hnot, mt hallow.mp hs, refusal]
  | advance =>
      cases hset : s.settled? with
      | some ttl => simp [apply, advance, hset, transition, aim, moved, refusal, Operation.hop?]
      | none =>
          have hno : ¬s.state.allows .completed = true := by simp [s.allows_completed, hset]
          simp [apply, advance, hset, aim, hno, refusal]
  | abort => simp [apply, abort, transition, aim, moved, refusal, Operation.hop?]

theorem apply_eq_ok {s t : Session} {op : Operation} :
    s.apply op = .ok t ↔ s.state.allows (s.aim op) = true ∧ s.moved op = t := by
  rw [apply_eq]
  split <;> simp [*]

theorem apply_eq_error {s : Session} {op : Operation} {e : SessionError} :
    s.apply op = .error e ↔ s.state.allows (s.aim op) = false ∧ s.refusal op = e := by
  rw [apply_eq]
  split <;> simp_all

theorem after_eq (s : Session) (op : Operation) :
    s.after op = if s.state.allows (s.aim op) then s.moved op else s := by
  simp only [after, apply_eq]
  split <;> rfl

theorem after_induction {P : Session → Prop} {s : Session} (hs : P s) (op : Operation)
    (hmove : s.state.allows (s.aim op) = true → P (s.moved op)) : P (s.after op) := by
  rw [after_eq]
  split
  · exact hmove ‹_›
  · exact hs

theorem run_induction {P : Session → Prop}
    (hstep : ∀ s op, P s → s.state.allows (s.aim op) = true → P (s.moved op))
    {s : Session} (hs : P s) (ops : List Operation) : P (s.run ops) := by
  induction ops generalizing s with
  | nil => exact hs
  | cons op ops ih => exact ih (after_induction hs op (hstep s op hs))

theorem refused_of_terminal {s : Session} (h : s.state.isTerminal = true) (op : Operation) :
    s.apply op = .error (s.refusal op) :=
  apply_eq_error.mpr ⟨SessionState.allows_terminal h, rfl⟩

theorem run_of_terminal {s : Session} (h : s.state.isTerminal = true) (ops : List Operation) :
    s.run ops = s := by
  induction ops with
  | nil => rfl
  | cons op ops ih =>
      have hstay : s.after op = s := by simp [after_eq, SessionState.allows_terminal h]
      simpa [run, hstay] using ih

def ttls (s : Session) : List UInt8 := s.hops.map Hop.ttl

theorem ttls_moved (s : Session) (op : Operation) :
    (s.moved op).ttls = s.ttls ++ op.hop?.toList.map Hop.ttl := by
  simp [ttls, moved]

/-- All hops are below this TTL, in a state that more hops can follow. -/
def frontier? : SessionState → Option Nat
  | .idle => some 0
  | .probing ttl | .awaitingResponse ttl => some ttl.toNat
  | .hopRecorded ttl | .hopTimedOut ttl => some (ttl.toNat + 1)
  | .completed | .aborted => none

theorem frontier?_of_allows {a b : SessionState} {n : Nat} (h : a.allows b = true)
    (hb : frontier? b = some n) : ∃ m ≤ n, frontier? a = some m := by
  cases a <;> cases b <;> simp_all [SessionState.allows, frontier?] <;> omega

structure Ascending (s : Session) : Prop where
  increasing : s.ttls.Pairwise (· < ·)
  below : ∀ n, frontier? s.state = some n → ∀ ttl ∈ s.ttls, ttl.toNat < n

theorem ascending_start (id : String) (target : Net.Ip) (firstTtl maxHops : UInt8)
    (now : Timestamp) : (start id target firstTtl maxHops now).Ascending :=
  ⟨List.Pairwise.nil, fun _ _ _ h => absurd h List.not_mem_nil⟩

theorem Ascending.le {s : Session} (h : s.Ascending) {limit : UInt8}
    (hlimit : s.state.ttl? = some limit) : ∀ ttl ∈ s.ttls, ttl ≤ limit := by
  intro ttl hmem
  obtain ⟨n, hn, hle⟩ : ∃ n, frontier? s.state = some n ∧ n ≤ limit.toNat + 1 := by
    cases hs : s.state <;> simp_all [frontier?, SessionState.ttl?]
  have hlt := h.below n hn ttl hmem
  exact UInt8.le_iff_toNat_le.mpr (by omega)

theorem Ascending.moved {s : Session} (h : s.Ascending) {op : Operation}
    (hallow : s.state.allows (s.aim op) = true) : (s.moved op).Ascending := by
  have hbefore : ∀ n, frontier? (s.aim op) = some n → ∀ ttl ∈ s.ttls, ttl.toNat < n := by
    intro n hn ttl hmem
    obtain ⟨m, hle, hm⟩ := frontier?_of_allows hallow hn
    exact Nat.lt_of_lt_of_le (h.below m hm ttl hmem) hle
  cases hhop : op.hop? with
  | none =>
      have httls : (s.moved op).ttls = s.ttls := by simp [ttls_moved, hhop]
      exact ⟨httls ▸ h.increasing, fun n hn ttl hmem => hbefore n hn ttl (httls ▸ hmem)⟩
  | some hop =>
      have hop_eq : op = .record hop := by cases op <;> simp_all [Operation.hop?]
      subst hop_eq
      have hawait := (s.allows_aim_record hop).mp hallow
      have hlt : ∀ ttl ∈ s.ttls, ttl.toNat < hop.ttl.toNat :=
        h.below hop.ttl.toNat (by simp [hawait, frontier?])
      have httls : (s.moved (.record hop)).ttls = s.ttls ++ [hop.ttl] := by
        simp [ttls_moved, hhop]
      refine ⟨?_, fun n hn ttl hmem => ?_⟩
      · rw [httls, List.pairwise_append]
        refine ⟨h.increasing, List.pairwise_singleton _ _, fun ttl hmem x hx => ?_⟩
        rw [List.mem_singleton.mp hx]
        exact UInt8.lt_iff_toNat_lt.mpr (hlt ttl hmem)
      · rcases List.mem_append.mp (httls ▸ hmem) with hold | hnew
        · exact hbefore n hn ttl hold
        · rw [List.mem_singleton.mp hnew]
          have hfront : frontier? (s.aim (.record hop)) = some (hop.ttl.toNat + 1) := by
            simp only [aim]
            split <;> rfl
          have hn' : n = hop.ttl.toNat + 1 := by simpa using hn.symm.trans hfront
          omega

theorem ascending_run (id : String) (target : Net.Ip) (firstTtl maxHops : UInt8)
    (now : Timestamp) (ops : List Operation) :
    ((start id target firstTtl maxHops now).run ops).Ascending :=
  run_induction (fun _ _ h => h.moved) (ascending_start id target firstTtl maxHops now) ops

theorem reached_iff (s : Session) :
    s.reached = true ↔ ∃ hop, s.hops.getLast? = some hop ∧ hop.responder = some s.target := by
  cases hlast : s.hops.getLast? <;> simp [reached, hlast, Hop.reaches_iff]

theorem lawful_run (id : String) (target : Net.Ip) (firstTtl maxHops : UInt8) (now : Timestamp)
    (ops : List Operation) :
    let s := (start id target firstTtl maxHops now).run ops
    (∀ op e, s.apply op = .error e → s.after op = s) ∧
      (∀ op t, s.apply op = .ok t →
        s.after op = t ∧ s.state.allows t.state = true ∧
          t = { s with state := t.state, hops := s.hops ++ op.hop?.toList } ∧
          ∀ hop, op = .record hop → s.state = .awaitingResponse hop.ttl) ∧
      s.ttls.Pairwise (· < ·) ∧
      (∀ limit, s.state.ttl? = some limit → ∀ ttl ∈ s.ttls, ttl ≤ limit) ∧
      (s.state.isTerminal = true → ∀ more,
        s.run more = s ∧ ∀ op, ∃ e, (s.run more).apply op = .error e) ∧
      ∀ ended,
        ((s.freeze ended).completed = true ↔ s.state = .completed) ∧
        ((s.freeze ended).reached = true ↔
          ∃ hop, s.hops.getLast? = some hop ∧ hop.responder = some s.target) := by
  intro s
  have hasc : s.Ascending := ascending_run id target firstTtl maxHops now ops
  refine ⟨?refused, ?accepted, hasc.increasing, fun _ => hasc.le, ?ended, ?frozen⟩
  case refused =>
    intro op e h
    simp [after, h, Except.toOption]
  case accepted =>
    intro op t h
    obtain ⟨hallow, rfl⟩ := apply_eq_ok.mp h
    refine ⟨by simp [after, h, Except.toOption], hallow, rfl, ?_⟩
    rintro hop rfl
    exact (s.allows_aim_record hop).mp hallow
  case ended =>
    intro h more
    rw [run_of_terminal h]
    exact ⟨rfl, fun op => ⟨_, refused_of_terminal h op⟩⟩
  case frozen =>
    exact fun ended => ⟨by simp [freeze], s.reached_iff⟩

end Session

end InbandTrace
