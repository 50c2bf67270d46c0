import InbandTrace.Proofs.Trace.Termination

namespace InbandTrace

theorem Config.toNat_first (c : Config) : c.first.toNat = max c.firstTtl.toNat 1 := by
  unfold first
  split
  · rename_i hzero
    simp [hzero]
  · rename_i hne
    have hpos : c.firstTtl.toNat ≠ 0 := fun h => hne (UInt8.toNat_inj.mp h)
    omega

namespace TraceResult

variable {c : Config} {r : TraceResult}

theorem length_hops_le (httls : r.hops.map (fun h => h.ttl.toNat) =
      List.range' c.first.toNat r.hops.length)
    (hpassed : ∀ h ∈ r.hops.dropLast, h.ttl < c.maxHops) :
    r.hops.length ≤ max 1 (c.maxHops.toNat + 1 - c.first.toNat) := by
  by_cases hshort : r.hops.length ≤ 1
  · omega
  have hlt : r.hops.length - 2 < r.hops.dropLast.length := by
    rw [List.length_dropLast]
    omega
  have hlen : r.hops.length - 2 < r.hops.length := by omega
  have hmem := hpassed _ (List.getElem_mem hlt)
  rw [List.getElem_dropLast] at hmem
  have hnth := congrArg (fun l : List Nat => l[r.hops.length - 2]?) httls
  simp only [List.getElem?_map, List.getElem?_eq_getElem hlen, Option.map_some,
    List.getElem?_range' hlen, Option.some.injEq] at hnth
  have hbound := UInt8.lt_iff_toNat_lt.mp hmem
  omega

theorem Partial.dropLast (h : r.Partial c) :
    ∀ hop ∈ r.hops.dropLast, hop.responder ≠ some r.target ∧ hop.ttl < c.maxHops :=
  fun hop hmem => h.passed hop ((List.dropLast_sublist _).subset hmem)

end TraceResult

theorem Ended.hops {c : Config} {outcome : Except TraceError TraceResult} {record : TraceRecord}
    {r : TraceResult} (h : Ended c outcome record)
    (hr : outcome = .ok r ∨ ∃ error, outcome = .error error ∧ error.partial? = some r) :
    r.hops.map (fun h => h.ttl.toNat) = List.range' c.first.toNat r.hops.length ∧
      ∀ hop ∈ r.hops.dropLast, hop.responder ≠ some r.target ∧ hop.ttl < c.maxHops := by
  rcases hr with rfl | ⟨error, rfl, hpart⟩
  · cases h with
    | complete h => exact ⟨h.ttls, h.passed⟩
  · cases h with
    | closed h =>
        cases hpart
        exact ⟨h.ttls, h.dropLast⟩
    | cancelled h =>
        cases hpart
        exact ⟨h.ttls, h.dropLast⟩
    | config h hhops => cases hpart

theorem Engine.hops_of_run (e : Engine) (history : List Registry.Operation) (now : Instant)
    (setups : List Trace.Setup) :
    let first := max e.config.firstTtl.toNat 1
    let last := e.config.maxHops.toNat
    let final := (e.withHistory history).run now (setups.map fun s => s.start now)
    final.traces.length = setups.length ∧
    (∀ t ∈ final.traces, ∃ outcome, t.outcome? = some outcome ∧
      (∀ r, (outcome = .ok r ∨ ∃ error, outcome = .error error ∧ error.partial? = some r) →
        r.hops.map (fun h => h.ttl.toNat) = List.range' first r.hops.length ∧
        (∀ h ∈ r.hops.dropLast, h.responder ≠ some r.target ∧ h.ttl.toNat < last) ∧
        r.hops.length ≤ max 1 (last + 1 - first)) ∧
      (∀ r, outcome = .ok r → ∃ h, r.hops.getLast? = some h ∧
        (h.responder = some r.target ∨ last ≤ h.ttl.toNat) ∧
        (r.reached = true ↔ h.responder = some r.target))) ∧
    ∀ f, Relation.ReflTransGen Fleet.Step ((e.withHistory history).fleet now setups) f →
      ∀ t ∈ f.traces, ∀ sweep, t.phase.sweep? = some sweep →
        sweep.ttl.toNat = first + sweep.session.hops.length := by
  have hstart := e.valid_fleet history now setups
  obtain ⟨hvalid, hconfig⟩ := hstart.run
  have hfinished := e.isFinished_run history now setups
  have hfirst := e.config.toNat_first
  refine ⟨?_, ?_, ?_⟩
  · have hlength := Fleet.length_reaches
      (Fleet.reaches_run ((e.withHistory history).fleet now setups))
    exact hlength.trans (by simp [fleet])
  · intro t ht
    obtain ⟨outcome, hout⟩ := Fleet.exists_outcome hfinished ht
    obtain ⟨record, hended⟩ := (hvalid.traces t ht).ended outcome hout
    rw [hconfig] at hended
    have hended : Ended e.config outcome record := hended
    refine ⟨outcome, hout, ?_, ?_⟩
    · intro r hr
      obtain ⟨httls, hpassed⟩ := hended.hops hr
      have hlength := TraceResult.length_hops_le httls fun h hmem => (hpassed h hmem).2
      rw [hfirst] at httls hlength
      refine ⟨httls, ?_, hlength⟩
      intro hop hmem
      obtain ⟨htarget, hlt⟩ := hpassed hop hmem
      exact ⟨htarget, UInt8.lt_iff_toNat_lt.mp hlt⟩
    · rintro r rfl
      cases hended with
      | complete h =>
          obtain ⟨hop, hlast, hend, hreach⟩ := h.last
          refine ⟨hop, hlast, ?_, hreach⟩
          rcases hend with htarget | hmax
          · exact .inl htarget
          · exact .inr (UInt8.le_iff_toNat_le.mp hmax)
  · intro f hf t ht sweep hsweep
    obtain ⟨hreached, hsame⟩ := hstart.reaches hf
    have hsweeping := (hreached.traces t ht).sweeping sweep hsweep
    rw [hsame] at hsweeping
    rw [← hfirst]
    exact hsweeping.current

namespace Sender

theorem flowOf_config_iff (b : Behaviour) :
    (∃ reason, flowOf b = .error (.config reason)) ↔
      ∃ src dst, b.localAddress = .ok src ∧ b.peerAddress 0 = .ok dst ∧
        dst.ip.canonical.isV4 = false := by
  unfold flowOf
  cases hsrc : b.localAddress with
  | error fault => simp [orFault, bind, Except.bind]
  | ok src =>
      cases hdst : b.peerAddress 0 with
      | error fault => simp [orFault, bind, Except.bind]
      | ok dst =>
          have hip : (Flow.between src dst).dst.ip = dst.ip.canonical := dst.ip_canonical
          simp only [orFault, bind, Except.bind, hip]
          cases hcan : dst.ip.canonical with
          | v4 address => simp [Net.Ip.isV4, pure, Except.pure, hcan]
          | v6 address => simp [Net.Ip.isV4, throw, throwThe, MonadExceptOf.throw, hcan]

theorem start_ok_flowOf {s : Sender} {w w' : World} (h : start w = (.ok s, w')) :
    ∃ flow, flowOf w.connection.behaviour = .ok flow := by
  unfold start at h
  split at h
  · cases h
  · rename_i flow hflow
    exact ⟨flow, hflow⟩

theorem start_error_flowOf {w w' : World} {e : TraceError} (h : start w = (.error e, w')) :
    (∃ reason, e = .config reason) ↔
      ∃ reason, flowOf w.connection.behaviour = .error (.config reason) := by
  unfold start at h
  split at h
  · rename_i e' hflow
    cases h
    simp [hflow]
  · rename_i flow hflow
    rw [hflow]
    split at h
    · cases h
      simp
    · split at h
      · cases h
        simp
      · cases h

end Sender

namespace Phase

def Admitted (b : Behaviour) : Phase → Prop
  | .opening => True
  | .finished outcome _ =>
      (∃ reason, outcome = .error (.config reason)) ↔
        ∃ reason, Sender.flowOf b = .error (.config reason)
  | _ => ∃ flow, Sender.flowOf b = .ok flow

theorem Admitted.flow {b : Behaviour} {phase : Phase} {sweep : Sweep} (h : phase.Admitted b)
    (hs : phase.sweep? = some sweep) : ∃ flow, Sender.flowOf b = .ok flow := by
  cases phase with
  | opening => cases hs
  | settling sw g k => exact h
  | writing sw d => exact h
  | awaiting sw f => exact h
  | finished o t => cases hs

theorem admitted_finished {b : Behaviour} {outcome : Except TraceError TraceResult}
    {at_ : Instant} (hb : ∃ flow, Sender.flowOf b = .ok flow)
    (ho : ∀ reason, outcome ≠ .error (.config reason)) :
    (Phase.finished outcome at_).Admitted b := by
  obtain ⟨flow, hflow⟩ := hb
  constructor
  · rintro ⟨reason, hreason⟩
    exact absurd hreason (ho reason)
  · rintro ⟨reason, hreason⟩
    rw [hflow] at hreason
    cases hreason

end Phase

namespace World

theorem admitted_conclude {w : World} {b : Behaviour} {sweep : Sweep} {hop : Hop}
    (hb : ∃ flow, Sender.flowOf b = .ok flow)
    (hstate : sweep.session.state = .awaitingResponse hop.ttl) :
    (w.conclude sweep hop).1.Admitted b := by
  rw [conclude_of_awaited hstate]
  split
  · exact Phase.admitted_finished hb fun reason hreason => by cases hreason
  · exact hb

theorem Move.admitted {w : World} {phase : Phase} {turn : Turn} (hm : Move w phase turn)
    (hstand : phase.Standing w.engine.registry) (h : phase.Admitted w.connection.behaviour) :
    turn.1.Admitted w.connection.behaviour := by
  cases hm with
  | opened hs => exact Sender.start_ok_flowOf hs
  | @refused w' id target e hs =>
      have hiff := Sender.start_error_flowOf hs
      refine Iff.trans ?_ hiff
      obtain ⟨reason, rfl⟩ | ⟨fault, rfl⟩ := start_error hs
      · simp [Abort.ofRefusal, Abort.error]
      · simp [Abort.ofRefusal, Abort.error]
  | paused hw ht => exact h
  | launched hw hl => exact h
  | collided hw hs => exact admitted_conclude h rfl
  | landed hw => exact h
  | @heard w' sweep flight hop hw hh =>
      obtain ⟨hstate, httl, hass⟩ := hstand
      have hhop := hh.ttl httl hass
      exact admitted_conclude h (hstate.trans (by rw [hhop]))
  | waited hw hempty ht hinbox hagenda => exact h
  | aborted hp hw ha =>
      refine Phase.admitted_finished (h.flow hp) ?_
      intro reason hreason
      rcases ha with rfl | rfl
      · cases hreason
      · cases hreason
  | rested => exact h

end World

structure Trace.Accounted (c : Config) (b : Behaviour) (records : List TraceRecord)
    (now : Instant) (e : Engine) (t : Trace) : Prop where
  valid : t.Valid e
  sound : e.registry.Sound
  config : e.config = c
  behaviour : t.connection.behaviour = b
  admitted : t.phase.Admitted b
  logged : World.Logged c records (t.phase, t.world now e)

namespace Trace.Accounted

variable {c : Config} {b : Behaviour} {records : List TraceRecord} {now : Instant} {e : Engine}
  {t : Trace}

theorem start (s : Setup) (e : Engine) (now : Instant) (hs : e.registry.Sound) :
    Accounted e.config s.behaviour e.records now e (s.start now) :=
  ⟨valid_start s e now, hs, rfl, rfl, trivial, rfl⟩

theorem wait (h : Accounted c b records now e t) (later : Instant) :
    Accounted c b records later e t :=
  ⟨h.valid, h.sound, h.config, h.behaviour, h.admitted, h.logged⟩

theorem step (h : Accounted c b records now e t) (hready : t.ready now e) :
    Accounted c b records now (t.step now e).2 (t.step now e).1 := by
  have hmove := move_turn now h.valid.standing
  have hopen : ∀ outcome at_, t.phase ≠ .finished outcome at_ := by
    intro outcome at_ hphase
    simp [ready, hphase] at hready
  have hint := hmove.intact h.sound h.valid.standing h.valid.sweeping hopen
  obtain ⟨hvalid, hconfig, ops, hr⟩ := h.valid.step now h.sound
  have hadm := hmove.admitted h.valid.standing (by rw [world, h.behaviour]; exact h.admitted)
  have hrecords : e.records = records := by
    have hlog := h.logged
    unfold World.Logged at hlog
    cases hphase : t.phase with
    | finished outcome at_ => exact absurd hphase (hopen outcome at_)
    | _ =>
        rw [hphase] at hlog
        exact hlog
  refine ⟨hvalid, hr ▸ h.sound.after ops, hconfig.trans h.config,
    hint.behaviour.trans h.behaviour, ?_, ?_⟩
  · rw [world, h.behaviour] at hadm
    exact hadm
  · have hlog := hint.logged
    simp only [world, hrecords, h.config] at hlog
    exact hlog

theorem run {c : Config} {b : Behaviour} {records : List TraceRecord} {f : Fleet}
    (h : f.Alone (Accounted c b records)) : f.run.Alone (Accounted c b records) :=
  h.reaches (fun _ _ _ hp hready => hp.step hready) (fun _ _ _ _ hp _ _ => hp.wait _)
    (Fleet.reaches_run f)

end Trace.Accounted

theorem Engine.outcome_of_run (e : Engine) (history : List Registry.Operation) (now : Instant)
    (s : Trace.Setup) :
    let final := (e.withHistory history).run now [s.start now]
    ∃ t outcome record, final.traces = [t] ∧ t.outcome? = some outcome ∧
      final.engine.records = e.records ++ [record] ∧
      ((∃ r, outcome = .ok r ∧ r.completed = true ∧ record.result = r ∧ record.error = none) ∨
        (∃ r, (outcome = .error (.connectionClosed r) ∨ outcome = .error (.cancelled r)) ∧
          r.completed = false ∧ r.reached = false ∧ record.result = r ∧
          record.error.isSome) ∨
        (∃ reason, outcome = .error (.config reason) ∧ record.result.completed = false ∧
          record.result.reached = false ∧ record.result.hops = [] ∧ record.error.isSome)) ∧
      ((∃ reason, outcome = .error (.config reason)) ↔
        ∃ src dst, s.behaviour.localAddress = .ok src ∧ s.behaviour.peerAddress 0 = .ok dst ∧
          dst.ip.canonical.isV4 = false) := by
  have hsound := Registry.sound_after_empty history
  have hstart : Fleet.Alone (Trace.Accounted e.config s.behaviour e.records)
      ((e.withHistory history).fleet now [s]) :=
    ⟨s.start now, rfl, .start s (e.withHistory history) now hsound⟩
  obtain ⟨t, ht, hacc⟩ := Trace.Accounted.run hstart
  have hfinished := e.isFinished_run history now [s]
  obtain ⟨outcome, hout⟩ := Fleet.exists_outcome hfinished (t := t) (by rw [ht]; simp)
  have hphase : ∃ at_, t.phase = .finished outcome at_ := by
    unfold Trace.outcome? at hout
    split at hout
    · rename_i o at_ hphase
      cases hout
      exact ⟨at_, hphase⟩
    · cases hout
  obtain ⟨at_, hphase⟩ := hphase
  have hlog := hacc.logged
  have hadm := hacc.admitted
  rw [hphase] at hlog hadm
  obtain ⟨record, hrecords, hended⟩ := hlog
  refine ⟨t, outcome, record, ht, hout, hrecords, ?_, hadm.trans (Sender.flowOf_config_iff _)⟩
  cases hended with
  | complete h => exact .inl ⟨_, rfl, h.completed, rfl, rfl⟩
  | closed h => exact .inr (.inl ⟨_, .inl rfl, h.completed, h.reached, rfl, rfl⟩)
  | cancelled h => exact .inr (.inl ⟨_, .inr rfl, h.completed, h.reached, rfl, rfl⟩)
  | config h hhops => exact .inr (.inr ⟨_, rfl, h.completed, h.reached, hhops, rfl⟩)

end InbandTrace
