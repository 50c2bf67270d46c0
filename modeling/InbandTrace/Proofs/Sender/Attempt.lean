import InbandTrace.Proofs.Registry.Beside
import InbandTrace.Proofs.Sender.Correlation
import InbandTrace.Proofs.Sender.Echo
import InbandTrace.Proofs.Trace.Cancellation

namespace InbandTrace

namespace World

theorem dueEvents_catchUp (w : World) : w.catchUp.dueEvents = [] := by
  have hnow : w.catchUp.now = w.now := w.lapse_catchUp.now
  rw [dueEvents, agenda_catchUp, hnow]
  cases hrest : w.connection.agenda.dropWhile fun e => decide (e.1 ≤ w.now) with
  | nil => rfl
  | cons x rest =>
      have hlate := List.head?_dropWhile_not (fun e => decide (e.1 ≤ w.now)) w.connection.agenda
      simp only [hrest, List.head?_cons] at hlate
      rw [List.takeWhile_cons_of_neg (by simpa using hlate)]

theorem catchUp_of_nothing_due {w : World} (h : w.dueEvents = []) : w.catchUp = w := by
  unfold catchUp
  unfold dueEvents at h
  cases hagenda : w.connection.agenda with
  | nil =>
      rw [settleAgenda, ← hagenda]
  | cons x rest =>
      rw [hagenda] at h
      have hlate : ¬x.1 ≤ w.now := by
        intro hdue
        rw [List.takeWhile_cons_of_pos (by simpa using hdue)] at h
        cases h
      rw [settleAgenda, if_neg hlate, ← hagenda]

end World

namespace Sender

def later (s : Sender) (n : Nat) : Sender := { s with serial := s.serial + n.toUInt16 }

theorem later_next (s : Sender) (n : Nat) : s.next.later n = s.later (n + 1) := by
  have hserial : s.serial + 1 + n.toUInt16 = s.serial + (n + 1).toUInt16 := by
    rw [UInt16.add_assoc, UInt16.add_comm 1]
    exact congrArg _ (UInt16.ofNat_add n 1).symm
  rw [later, later, next, hserial]

theorem reserve_cases (s : Sender) (ttl : UInt8) (now : Instant) (more : Nat) (r : Registry) :
    ((∀ i ≤ more, r.contains (s.later (i + 1)).token) ∧
      s.reserve ttl now more r = (s.later (more + 1), .error (s.later (more + 1)).token)) ∨
    ∃ i ≤ more, (∀ j < i, r.contains (s.later (j + 1)).token) ∧
      ∃ r', r.register (s.later (i + 1)).token ttl now (now + s.hopTimeout) =
          some (r.registrations, r') ∧
        s.reserve ttl now more r = (s.later (i + 1), .ok (r.registrations, r')) := by
  induction more generalizing s with
  | zero =>
      cases hr : r.register s.next.token ttl now (now + s.hopTimeout) with
      | none =>
          refine .inl ⟨fun i hi => ?_, reserve_zero_of_taken hr⟩
          rw [Nat.le_zero.mp hi]
          exact Registry.register_eq_none_iff.mp hr
      | some x =>
          obtain ⟨m, r'⟩ := x
          obtain ⟨-, rfl, -⟩ := Registry.register_eq_some_iff.mp hr
          exact .inr ⟨0, Nat.le_refl 0, nofun, r', hr, reserve_of_free hr⟩
  | succ more ih =>
      cases hr : r.register s.next.token ttl now (now + s.hopTimeout) with
      | none =>
          have htaken := Registry.register_eq_none_iff.mp hr
          rw [reserve_succ_of_taken hr]
          rcases ih s.next with ⟨hall, hgiven⟩ | ⟨i, hi, hbefore, r', hreg, hgiven⟩
          · refine .inl ⟨fun i hi => ?_, by rw [hgiven, later_next]⟩
            cases i with
            | zero => exact htaken
            | succ i => exact later_next s _ ▸ hall i (Nat.le_of_succ_le_succ hi)
          · rw [later_next] at hreg hgiven
            refine .inr ⟨i + 1, Nat.succ_le_succ hi, fun j hj => ?_, r', hreg, hgiven⟩
            cases j with
            | zero => exact htaken
            | succ j => exact later_next s _ ▸ hbefore j (Nat.lt_of_succ_lt_succ hj)
      | some x =>
          obtain ⟨m, r'⟩ := x
          obtain ⟨-, rfl, -⟩ := Registry.register_eq_some_iff.mp hr
          exact .inr ⟨0, Nat.zero_le _, nofun, r', hr, reserve_of_free hr⟩

/-- Why the ping of a probe with this TTL does not go out. -/
def withheld (w : World) (ttl : UInt8) : Option Fault :=
  (w.connection.behaviour.setTtl w.connection.ttlCalls ttl.toNat).or
    (w.connection.behaviour.write ttl.toNat).refusal

/-- Why the probe is given up although its ping has gone out. -/
def botched (s : Sender) (w : World) (ttl : UInt8) : Option Fault :=
  (w.connection.behaviour.write ttl.toNat).failure.or
    (w.connection.behaviour.setTtl (w.connection.ttlCalls + 1) s.defaultTtl)

def flight (s : Sender) (w : World) (ttl : UInt8) : Flight :=
  ⟨s.token, ttl, w.now, w.now + s.hopTimeout, Payload.bytes s.serial ttl,
    retransmitted w.statistics.1, w.statistics.2.engine.registry.registrations⟩

def departure (s : Sender) (w : World) (ttl : UInt8) : Departure :=
  let write := w.connection.behaviour.write ttl.toNat
  ⟨s.flight w ttl, write.pause.isSome, w.now + write.takes, write.failure⟩

def lowered (w : World) (r : Registry) (ttl : UInt8) : World :=
  ((w.statistics.2.withRegistry r).setTtl ttl.toNat).2

section

variable {s own : Sender} {w : World} {ttl : UInt8} {r : Registry}

theorem setTtl_registered (w : World) (r : Registry) (ttl : UInt8) :
    (w.statistics.2.withRegistry r).setTtl ttl.toNat =
      (w.connection.behaviour.setTtl w.connection.ttlCalls ttl.toNat, lowered w r ttl) := by
  have hlapse := w.lapse_statistics
  refine Prod.ext ?_ rfl
  rw [World.setTtl, Connection.setTtl_fst]
  change w.statistics.2.connection.behaviour.setTtl w.statistics.2.connection.ttlCalls _ = _
  rw [hlapse.behaviour, hlapse.ttlCalls]

theorem now_lowered (w : World) (r : Registry) (ttl : UInt8) : (lowered w r ttl).now = w.now :=
  w.lapse_statistics.now

theorem connection_lowered (w : World) (r : Registry) (ttl : UInt8) :
    (lowered w r ttl).connection.behaviour = w.connection.behaviour ∧
      (lowered w r ttl).connection.ttlCalls = w.connection.ttlCalls + 1 ∧
      (lowered w r ttl).connection.pings = w.connection.pings ∧
      (lowered w r ttl).connection.agenda = w.statistics.2.connection.agenda := by
  have hlapse := w.lapse_statistics
  have hset : ∀ c : Connection, (c.setTtl ttl.toNat).2.behaviour = c.behaviour ∧
      (c.setTtl ttl.toNat).2.ttlCalls = c.ttlCalls + 1 ∧
      (c.setTtl ttl.toNat).2.pings = c.pings ∧ (c.setTtl ttl.toNat).2.agenda = c.agenda := by
    intro c
    unfold Connection.setTtl
    split <;> exact ⟨rfl, rfl, rfl, rfl⟩
  obtain ⟨hbehaviour, hcalls, hpings, hagenda⟩ := hset w.statistics.2.connection
  exact ⟨hbehaviour.trans hlapse.behaviour, hcalls.trans (congrArg (· + 1) hlapse.ttlCalls),
    hpings.trans hlapse.pings, hagenda⟩

theorem ttl_lowered (r : Registry)
    (h : w.connection.behaviour.setTtl w.connection.ttlCalls ttl.toNat = none) :
    (lowered w r ttl).connection.ttl = ttl.toNat :=
  World.ttl_setTtl (by rw [setTtl_registered, h])

theorem launch_of_reserve
    (hr : s.reserve ttl w.now (attempts - 1) w.statistics.2.engine.registry =
      (own, .ok (w.statistics.2.engine.registry.registrations, r))) :
    s.launch w ttl = match withheld w ttl with
      | some fault => (.error (.fault fault), own, own.abandon (lowered w r ttl)
          w.statistics.2.engine.registry.registrations)
      | none => (.ok (own.departure w ttl), own,
          (lowered w r ttl).ping (Payload.bytes own.serial ttl)) := by
  have hnow : w.statistics.2.now = w.now := w.lapse_statistics.now
  rw [← hnow] at hr
  have hstamp : (lowered w r ttl).stamped own = lowered w r ttl := World.restamp_of_reserve hr
  obtain ⟨hbehaviour, -, -, hagenda⟩ := connection_lowered w r ttl
  have hstill : (lowered w r ttl).dueEvents = [] := by
    rw [World.dueEvents, hagenda, now_lowered, ← hnow]
    exact w.dueEvents_catchUp
  have hsent : own.transmit (w.statistics.2.withRegistry r) ttl
      (retransmitted w.statistics.1) w.statistics.2.engine.registry.registrations =
      match withheld w ttl with
      | some fault => (.error fault, lowered w r ttl)
      | none => (.ok (own.departure w ttl),
          (lowered w r ttl).ping (Payload.bytes own.serial ttl)) := by
    rw [World.transmit_eq, setTtl_registered, withheld]
    cases hset : w.connection.behaviour.setTtl w.connection.ttlCalls ttl.toNat with
    | some fault => rfl
    | none =>
        simp only [hstamp, World.catchUp_of_nothing_due hstill, World.depart, ttl_lowered r hset,
          hbehaviour, now_lowered, Option.none_or]
        cases (w.connection.behaviour.write ttl.toNat).refusal <;> rfl
  cases hfault : withheld w ttl with
  | some fault =>
      rw [hfault] at hsent
      exact launch_of_transmit rfl hr hsent
  | none =>
      rw [hfault] at hsent
      exact launch_of_transmit rfl hr hsent

def written (w : World) (d : Departure) : World := if d.pauses then w.catchUp else w

theorem exists_lapse_written (w : World) (d : Departure) :
    ∃ during, World.Lapse during w (written w d) := by
  unfold written
  split
  · exact ⟨_, w.lapse_catchUp⟩
  · exact ⟨_, .refl w⟩

theorem land_eq (s : Sender) (w : World) (d : Departure) :
    s.land w d = match d.failure.or ((written w d).setTtl s.defaultTtl).1 with
      | some fault => (.error fault,
          ((written w d).setTtl s.defaultTtl).2.forget d.flight.token d.flight.mailbox)
      | none => (.ok d.flight, ((written w d).setTtl s.defaultTtl).2) := by
  unfold land restore written
  cases hset : (if d.pauses then w.catchUp else w).setTtl s.defaultTtl with
  | mk fault w₁ => cases hd : d.failure <;> cases fault <;> simp [hset]

def pinged (own : Sender) (w : World) (ttl : UInt8) (r : Registry) : World :=
  { (lowered w r ttl).ping (Payload.bytes own.serial ttl) with now := (own.departure w ttl).done }

def tried (own : Sender) (w : World) (ttl : UInt8) (r : Registry) : World :=
  match withheld w ttl with
  | some _ => lowered w r ttl
  | none => written (pinged own w ttl r) (own.departure w ttl)

def coming (own : Sender) (w : World) (ttl : UInt8) : Agenda :=
  match withheld w ttl with
  | some _ => w.statistics.2.connection.agenda
  | none => w.statistics.2.connection.agenda.scheduleAll w.now
      (w.connection.behaviour.prompted ⟨w.now, ttl.toNat, Payload.bytes own.serial ttl⟩)

theorem exists_during (own : Sender) (w : World) (ttl : UInt8) (r : Registry) :
    let w' := tried own w ttl r
    w'.connection.behaviour = w.connection.behaviour ∧
      w'.connection.ttlCalls = w.connection.ttlCalls + 1 ∧
      w'.connection.pings = (match withheld w ttl with
        | some _ => w.connection.pings
        | none => ⟨w.now, ttl.toNat, Payload.bytes own.serial ttl⟩ :: w.connection.pings) ∧
      ∃ during : Agenda, coming own w ttl = during ++ w'.connection.agenda ∧
        w'.engine.registry = r.after during.operations := by
  obtain ⟨hbehaviour, hcalls, hpings, hagenda⟩ := connection_lowered w r ttl
  intro w'
  cases hfault : withheld w ttl with
  | some fault =>
      have hw' : w' = lowered w r ttl := by simp only [w', tried, hfault]
      rw [hw', coming, hfault]
      exact ⟨hbehaviour, hcalls, hpings, [], hagenda.symm, rfl⟩
  | none =>
      obtain ⟨hset, -⟩ := Option.or_eq_none_iff.mp hfault
      have hw' : w' = written (pinged own w ttl r) (own.departure w ttl) := by
        simp only [w', tried, hfault]
      obtain ⟨during, hlapse⟩ := exists_lapse_written (pinged own w ttl r) (own.departure w ttl)
      have hping : (⟨(lowered w r ttl).now, (lowered w r ttl).connection.ttl,
          Payload.bytes own.serial ttl⟩ : Ping) =
            ⟨w.now, ttl.toNat, Payload.bytes own.serial ttl⟩ := by
        rw [ttl_lowered r hset, now_lowered]
      have hcoming : (pinged own w ttl r).connection.agenda = coming own w ttl := by
        rw [coming, hfault]
        change (lowered w r ttl).connection.agenda.scheduleAll (lowered w r ttl).now
          ((lowered w r ttl).connection.behaviour.prompted ⟨(lowered w r ttl).now,
            (lowered w r ttl).connection.ttl, Payload.bytes own.serial ttl⟩) = _
        rw [hping, hbehaviour, hagenda, now_lowered]
      rw [hw', hlapse.behaviour, hlapse.ttlCalls, hlapse.pings, ← hcoming]
      refine ⟨hbehaviour, hcalls, ?_, during, hlapse.agenda, hlapse.registry⟩
      exact congrArg₂ List.cons hping hpings

theorem send_of_reserve
    (hr : s.reserve ttl w.now (attempts - 1) w.statistics.2.engine.registry =
      (own, .ok (w.statistics.2.engine.registry.registrations, r))) :
    let back := (tried own w ttl r).setTtl own.defaultTtl
    s.send w ttl = match (withheld w ttl).or (own.botched w ttl) with
      | some fault => (.error (.fault fault), own,
          back.2.forget own.token w.statistics.2.engine.registry.registrations)
      | none => (.ok (own.flight w ttl), own, back.2) := by
  have hlaunch := launch_of_reserve hr
  intro back
  cases hfault : withheld w ttl with
  | some fault =>
      rw [hfault] at hlaunch
      have htried : tried own w ttl r = lowered w r ttl := by simp only [tried, hfault]
      simp only [send, hlaunch, abandon, restore, Option.some_or, back, htried]
  | none =>
      rw [hfault] at hlaunch
      have htried : tried own w ttl r = written (pinged own w ttl r) (own.departure w ttl) := by
        simp only [tried, hfault]
      have hrestored : (own.departure w ttl).failure.or
          ((tried own w ttl r).setTtl own.defaultTtl).1 = own.botched w ttl := by
        obtain ⟨hbehaviour, hcalls, -⟩ := exists_during own w ttl r
        simp only [World.setTtl, Connection.setTtl_fst, hbehaviour, hcalls]
        rfl
      have hland := land_eq own (pinged own w ttl r) (own.departure w ttl)
      rw [← htried, hrestored] at hland
      cases hbotched : own.botched w ttl with
      | some fault =>
          have hfailed : own.land { (lowered w r ttl).ping (Payload.bytes own.serial ttl) with
              now := (own.departure w ttl).done } (own.departure w ttl) = (.error fault,
                back.2.forget own.token w.statistics.2.engine.registry.registrations) := by
            rw [hbotched] at hland
            exact hland
          simp only [send, hlaunch, hfailed, Option.none_or]
      | none =>
          have hlanded : own.land { (lowered w r ttl).ping (Payload.bytes own.serial ttl) with
              now := (own.departure w ttl).done } (own.departure w ttl) =
                (.ok (own.flight w ttl), back.2) := by
            rw [hbotched] at hland
            exact hland
          simp only [send, hlaunch, hlanded, Option.none_or]

structure Attempted (own : Sender) (w : World) (ttl : UInt8) (during : Agenda)
    (answer : Except TraceError Flight) (c : Connection) : Prop where
  answered : answer = match (withheld w ttl).or (own.botched w ttl) with
    | some fault => .error (.fault fault)
    | none => .ok (own.flight w ttl)
  pings : c.pings = match withheld w ttl with
    | some _ => w.connection.pings
    | none => ⟨w.now, ttl.toNat, Payload.bytes own.serial ttl⟩ :: w.connection.pings
  restored : w.connection.behaviour.setTtl (w.connection.ttlCalls + 1) own.defaultTtl = none →
    c.ttl = own.defaultTtl
  happened : coming own w ttl = during ++ c.agenda

/-- What an attempt makes of the registry: the entry of the probe is there if it has been sent, and
else nothing of it, beside what others make of the registry that it finds. -/
structure Isolated (own : Sender) (before : Registry) (during : List Registry.Operation)
    (answer : Except TraceError Flight) (r : Registry) : Prop where
  kept : ∀ f, answer = .ok f → f.mailbox = before.registrations ∧ r.find? f.token =
    (Registry.Tenure.lasting? f.token f.mailbox ⟨f.sentAt, f.deadline, true⟩ during).map fun t =>
      ⟨f.token, f.ttl, t.sentAt, t.deadline, f.mailbox⟩
  gone : ∀ e, answer = .error e →
    r.contains own.token = false ∧ r.mailbox? before.registrations = none
  others : ∀ e : Entry, e.token ≠ own.token →
    (e ∈ r.entries ↔ e ∈ (before.skip.after during).entries)
  boxes : ∀ n, n ≠ before.registrations → r.mailbox? n = (before.skip.after during).mailbox? n

theorem Isolated.of_ambient {own : Sender} {before r : Registry}
    {during : List Registry.Operation} {answer : Except TraceError Flight}
    (h : own.Isolated before during answer r) (hambient : ∀ op ∈ during, op.Ambient) :
    (∀ f, answer = .ok f → r.find? f.token =
      if during.any (Registry.Tenure.endedBy ⟨f.sentAt, f.deadline, true⟩ f.token)
        then none else some ⟨f.token, f.ttl, f.sentAt, f.deadline, f.mailbox⟩) ∧
    ∀ e : Entry, e.token ≠ own.token → (e ∈ r.entries ↔ e ∈ (before.after during).entries) := by
  constructor
  · intro f hf
    rw [(h.kept f hf).2, Registry.Tenure.lasting?_of_ambient _ _ _ hambient]
    split <;> rfl
  · intro e he
    rw [h.others e he, Registry.after_skip hambient]
    rfl

theorem attempted_of_reserve
    (hr : s.reserve ttl w.now (attempts - 1) w.statistics.2.engine.registry =
      (own, .ok (w.statistics.2.engine.registry.registrations, r)))
    {during : Agenda}
    (hduring : coming own w ttl = during ++ (tried own w ttl r).connection.agenda) :
    own.Attempted w ttl during (s.send w ttl).1 (s.send w ttl).2.2.connection := by
  have hsend := send_of_reserve hr
  obtain ⟨hbehaviour, hcalls, hpings, -⟩ := exists_during own w ttl r
  let back := (tried own w ttl r).setTtl own.defaultTtl
  have hanswer : (s.send w ttl).1 = match (withheld w ttl).or (own.botched w ttl) with
      | some fault => .error (.fault fault)
      | none => .ok (own.flight w ttl) := by
    rw [hsend]
    split <;> rfl
  have hconnection : (s.send w ttl).2.2.connection = back.2.connection := by
    rw [hsend]
    split <;> rfl
  rw [hconnection]
  refine ⟨hanswer, (Connection.pings_setTtl _ _).trans hpings, fun hrestored => ?_, ?_⟩
  · rw [← hbehaviour, ← hcalls] at hrestored
    exact World.ttl_setTtl ((Connection.setTtl_fst _ _).trans hrestored)
  · rw [hduring]
    exact congrArg (during ++ ·) (World.setTtl_frame _ _).2.symm

theorem isolated_of_reserve (hs : w.engine.registry.Sound)
    (hr : s.reserve ttl w.now (attempts - 1) w.statistics.2.engine.registry =
      (own, .ok (w.statistics.2.engine.registry.registrations, r)))
    {during : List Registry.Operation} (hduring : (tried own w ttl r).engine.registry =
      r.after during) (hops : ∀ op ∈ during, op.Spares own.token) :
    own.Isolated w.statistics.2.engine.registry during (s.send w ttl).1
      (s.send w ttl).2.2.engine.registry := by
  have hsend := send_of_reserve hr
  obtain ⟨hframe, hreg⟩ := reserve_ok hr
  have htimeout : s.hopTimeout = own.hopTimeout := by rw [hframe]
  have hbefore : w.statistics.2.engine.registry.Sound := w.lapse_statistics.registry ▸ hs.after _
  have hbeside := (Registry.Beside.enter hbefore hreg).after hops
  have hown := (hbefore.pending hreg).find?_after hops
  rw [← hduring] at hbeside
  rw [← hduring, htimeout] at hown
  cases hfault : (withheld w ttl).or (own.botched w ttl) with
  | some fault =>
      rw [hfault] at hsend
      obtain ⟨hentries, hbox, hboxes⟩ := hbeside.forget
      rw [hsend]
      refine ⟨nofun, fun _ _ => ⟨?_, hbox⟩, fun e _ => ?_, hboxes⟩
      · refine Registry.contains_eq_false_iff.mpr fun e he => ?_
        exact (hbeside.mem_iff.mp (hentries ▸ he)).2
      · rw [← hentries]
        rfl
  | none =>
      rw [hfault] at hsend
      rw [hsend]
      refine ⟨?_, nofun, fun e he => (and_iff_left he).symm.trans hbeside.mem_iff.symm,
        hbeside.boxes⟩
      rintro f ⟨⟩
      exact ⟨rfl, hown⟩

end

/-- A probe is given up without anything done to the connection or the registry when the tokens of
the next serial numbers are all pending, and else it is tried with the first of them that is not.
Either it is sent then and its entry is there, or it is not and there is no entry. -/
theorem send_all_or_nothing (s : Sender) (w : World) (ttl : UInt8)
    (history : List Registry.Operation)
    (hhistory : w.engine.registry = Registry.empty.after history) :
    let before := w.engine.registry.after w.dueEvents.operations
    let (answer, s', w') := s.send w ttl
    ((∀ i < attempts, before.contains (s.later (i + 1)).token) ∧
      answer = .error (.tokenCollision (s.later attempts).token) ∧ s' = s.later attempts ∧
      w'.engine.registry = before ∧ w'.connection.ttlCalls = w.connection.ttlCalls ∧
      w'.connection.ttl = w.connection.ttl ∧ w'.connection.pings = w.connection.pings) ∨
    ∃ i < attempts, (∀ j < i, before.contains (s.later (j + 1)).token) ∧
      before.contains (s.later (i + 1)).token = false ∧ s' = s.later (i + 1) ∧
      ∃ during, s'.Attempted w ttl during answer w'.connection ∧
        ((∀ op ∈ during.operations, op.Spares s'.token) →
          s'.Isolated before during.operations answer w'.engine.registry) ∧
        ((∀ op ∈ during.operations, op.Ambient) →
          (∀ f, answer = .ok f → w'.engine.registry.find? f.token =
            if during.operations.any (Registry.Tenure.endedBy ⟨f.sentAt, f.deadline, true⟩ f.token)
              then none else some ⟨f.token, f.ttl, f.sentAt, f.deadline, f.mailbox⟩) ∧
          ∀ e : Entry, e.token ≠ s'.token → (e ∈ w'.engine.registry.entries ↔
            e ∈ (before.after during.operations).entries)) := by
  have hs : w.engine.registry.Sound := hhistory ▸ Registry.sound_after_empty history
  have hlapse := w.lapse_statistics
  intro before
  have hbefore : w.statistics.2.engine.registry = before := hlapse.registry
  rcases s.reserve_cases ttl w.now (attempts - 1) w.statistics.2.engine.registry with
    ⟨hall, hgiven⟩ | ⟨i, hi, htaken, r, hreg, hgiven⟩
  · have hsent : s.send w ttl = (.error (.tokenCollision (s.later attempts).token),
        s.later attempts, w.statistics.2) := by
      rw [← hlapse.now] at hgiven
      simp only [send, launch, hgiven]
      rfl
    rw [hsent]
    exact .inl ⟨fun i hi => hbefore ▸ hall i (Nat.le_pred_of_lt hi), rfl, rfl, hbefore,
      hlapse.ttlCalls, hlapse.ttl, hlapse.pings⟩
  · obtain ⟨-, -, -, during, hcoming, hregistry⟩ := exists_during (s.later (i + 1)) w ttl r
    have hsender : (s.send w ttl).2.1 = s.later (i + 1) := by
      rw [send_of_reserve hgiven]
      split <;> rfl
    have hattempted := attempted_of_reserve hgiven hcoming
    have hisolated := isolated_of_reserve hs hgiven hregistry
    rw [hbefore, ← hsender] at hisolated
    rw [← hsender] at hattempted
    refine .inr ⟨i, Nat.lt_of_le_pred (by decide) hi, fun j hj => hbefore ▸ htaken j hj, ?_,
      hsender, during, hattempted, hisolated, fun hambient => ?_⟩
    · exact hbefore ▸ (Registry.register_eq_some_iff.mp hreg).1
    · exact (hisolated fun op hop => (hambient op hop).spares _).of_ambient hambient

def contestedHistory : List Registry.Operation :=
  [.register ⟨mappedSender.flow, 63⟩ 0 0 100, .register Registry.sampleToken 4 0 2]

def contested : World where
  now := 0
  engine :=
    { config := .default, wallClock := fun _ => ⟨0, 0⟩
      registry := Registry.empty.after contestedHistory }
  connection := .start
    { localAddress := .ok (.v4 ⟨192, 0, 2, 10⟩ 443)
      peerAddress := fun _ => .ok mappedPeer
      write := fun _ =>
        { pause := some 5
          reactions :=
            [(1, fun _ => .packet (Packet.IcmpError.about ⟨mappedSender.flow, 64⟩
                (.v4 ⟨10, 1, 1, 1⟩) 11 0).bytes (.v4 ⟨10, 1, 1, 1⟩)),
              (2, fun _ => .reap 0)]
          failure := some ⟨"broken pipe"⟩ } } 0

theorem send_of_contested :
    let (answer, s', w') := mappedSender.send contested 3
    answer = .error (.fault ⟨"broken pipe"⟩) ∧ s'.token = ⟨mappedSender.flow, 64⟩ ∧
      w'.connection.pings.length = 1 ∧ w'.connection.ttl = 64 ∧
      w'.engine.registry.contains s'.token = false ∧
      ∀ e : Entry, e.token ≠ s'.token →
        (e ∈ w'.engine.registry.entries ↔ e = ⟨⟨mappedSender.flow, 63⟩, 0, 0, 100, 0⟩) := by
  have hfree : (Registry.empty.after contestedHistory).contains (mappedSender.later 2).token =
      false := by decide
  have htaken : (Registry.empty.after contestedHistory).contains (mappedSender.later 1).token =
      true := by decide
  have hagenda : (mappedSender.send contested 3).2.2.connection.agenda = [] := by decide +kernel
  have hsend := send_all_or_nothing mappedSender contested 3 contestedHistory rfl
  generalize mappedSender.send contested 3 = sent at hsend hagenda ⊢
  obtain ⟨answer, s', w'⟩ := sent
  rcases hsend with ⟨hall, -⟩ |
    ⟨i, hi, hall, hnot, rfl, during, hattempted, hisolated, hambient⟩
  · exact absurd (hall 1 (by decide)) (Bool.eq_false_iff.mp hfree)
  obtain rfl : i = 1 := by
    rcases Nat.lt_trichotomy i 1 with hlt | rfl | hgt
    · rw [Nat.lt_one_iff.mp hlt] at hnot
      exact absurd htaken (Bool.eq_false_iff.mp hnot)
    · rfl
    · exact absurd (hall 1 hgt) (Bool.eq_false_iff.mp hfree)
  have hduring := hattempted.happened
  simp only at hagenda
  rw [hagenda, List.append_nil] at hduring
  have hops : during.operations = [.packet (Packet.IcmpError.about ⟨mappedSender.flow, 64⟩
      (.v4 ⟨10, 1, 1, 1⟩) 11 0).bytes (.v4 ⟨10, 1, 1, 1⟩) 1, .reap 2] := by
    rw [← hduring]
    rfl
  have hquiet : ∀ op ∈ during.operations, op.Ambient := by
    simp [hops, Registry.Operation.Ambient]
  have hanswer : answer = .error (.fault ⟨"broken pipe"⟩) := hattempted.answered
  obtain ⟨hgone, -⟩ := (hisolated fun op hop => (hquiet op hop).spares _).gone _ hanswer
  refine ⟨hanswer, rfl, by rw [hattempted.pings]; rfl, hattempted.restored rfl, hgone, ?_⟩
  have hleft : ((contested.engine.registry.after contested.dueEvents.operations).after
      during.operations).entries = [⟨⟨mappedSender.flow, 63⟩, 0, 0, 100, 0⟩] := by
    rw [hops]
    decide +kernel
  intro e he
  rw [(hambient hquiet).2 e he, hleft, List.mem_singleton]

end Sender

end InbandTrace
