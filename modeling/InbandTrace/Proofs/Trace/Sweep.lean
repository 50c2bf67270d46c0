import InbandTrace.Proofs.Trace.Turn

namespace InbandTrace

def Config.first (c : Config) : UInt8 := if c.firstTtl = 0 then 1 else c.firstTtl

/-- The hops of a session that probes a TTL: one for each TTL before it, none of which ended the
sweep. -/
structure Session.Sweeping (c : Config) (s : Session) (ttl : UInt8) : Prop where
  limit : s.maxHops = c.maxHops
  ttls : s.hops.map (fun h => h.ttl.toNat) = List.range' c.first.toNat s.hops.length
  current : ttl.toNat = c.first.toNat + s.hops.length
  passed : ∀ h ∈ s.hops, h.responder ≠ some s.target ∧ h.ttl < c.maxHops

structure TraceResult.Complete (c : Config) (r : TraceResult) : Prop where
  completed : r.completed = true
  ttls : r.hops.map (fun h => h.ttl.toNat) = List.range' c.first.toNat r.hops.length
  passed : ∀ h ∈ r.hops.dropLast, h.responder ≠ some r.target ∧ h.ttl < c.maxHops
  last : ∃ hop, r.hops.getLast? = some hop ∧
    (hop.responder = some r.target ∨ c.maxHops ≤ hop.ttl) ∧
    (r.reached = true ↔ hop.responder = some r.target)

structure TraceResult.Partial (c : Config) (r : TraceResult) : Prop where
  completed : r.completed = false
  reached : r.reached = false
  ttls : r.hops.map (fun h => h.ttl.toNat) = List.range' c.first.toNat r.hops.length
  passed : ∀ h ∈ r.hops, h.responder ≠ some r.target ∧ h.ttl < c.maxHops

inductive Ended (c : Config) : Except TraceError TraceResult → TraceRecord → Prop where
  | complete {r : TraceResult} (h : r.Complete c) : Ended c (.ok r) ⟨r, none⟩
  | closed {r : TraceResult} (h : r.Partial c) :
      Ended c (.error (.connectionClosed r)) ⟨r, some "connection closed"⟩
  | cancelled {r : TraceResult} (h : r.Partial c) :
      Ended c (.error (.cancelled r)) ⟨r, some "cancelled"⟩
  | config {reason : String} {r : TraceResult} (h : r.Partial c) (hhops : r.hops = []) :
      Ended c (.error (.config reason)) ⟨r, some (TraceError.config reason).message⟩

namespace Session.Sweeping

variable {c : Config} {s : Session} {ttl : UInt8}

theorem start (c : Config) {id : String} {target : Net.Ip} {now : Timestamp} :
    (Session.start id target c.firstTtl c.maxHops now).Sweeping c c.first :=
  ⟨rfl, rfl, rfl, by simp [Session.start]⟩

theorem of_eq {s' : Session} (h : s.Sweeping c ttl) (hl : s'.maxHops = s.maxHops)
    (hh : s'.hops = s.hops) (ht : s'.target = s.target) : s'.Sweeping c ttl :=
  ⟨hl.trans h.limit, by rw [hh]; exact h.ttls, by rw [hh]; exact h.current,
    by rw [hh, ht]; exact h.passed⟩

theorem ttls_append (h : s.Sweeping c ttl) {hop : Hop} (hop_ttl : hop.ttl = ttl) :
    (s.hops ++ [hop]).map (fun h => h.ttl.toNat) =
      List.range' c.first.toNat (s.hops ++ [hop]).length := by
  simp [h.ttls, List.range'_concat, hop_ttl, h.current]

theorem not_endsWith (h : s.Sweeping c ttl) {hop : Hop} (hends : s.endsWith hop = false) :
    hop.responder ≠ some s.target ∧ hop.ttl < c.maxHops := by
  simp only [Session.endsWith, Bool.or_eq_false_iff, decide_eq_false_iff_not,
    UInt8.not_le, h.limit] at hends
  refine ⟨?_, hends.2⟩
  intro hsome
  rw [Hop.reaches_iff.mpr hsome] at hends
  exact absurd hends.1 (by simp)

theorem onward (h : s.Sweeping c ttl) {hop : Hop} (hop_ttl : hop.ttl = ttl)
    (hends : s.endsWith hop = false) {state : SessionState} :
    Sweeping c { s with hops := s.hops ++ [hop], state := state } (hop.ttl + 1) := by
  have hnot := h.not_endsWith hends
  refine ⟨h.limit, h.ttls_append hop_ttl, ?_, ?_⟩
  · rw [Session.toNat_add_one_of_lt hnot.2, hop_ttl, h.current]
    simp [Nat.add_assoc]
  · intro x hx
    rcases List.mem_append.mp hx with hx | hx
    · exact h.passed x hx
    · rw [List.mem_singleton.mp hx]
      exact hnot

theorem complete (h : s.Sweeping c ttl) {hop : Hop} (hop_ttl : hop.ttl = ttl)
    (hends : s.endsWith hop = true) (now : Timestamp) :
    (Session.freeze { s with hops := s.hops ++ [hop], state := .completed } now).Complete c := by
  refine ⟨rfl, h.ttls_append hop_ttl, ?_, hop, ?_, ?_, ?_⟩
  · simp only [Session.freeze, List.dropLast_concat]
    exact h.passed
  · simp [Session.freeze]
  · simp only [Session.endsWith, Bool.or_eq_true, decide_eq_true_eq, Hop.reaches_iff,
      h.limit] at hends
    exact hends
  · simp [Session.freeze, Session.reached, Hop.reaches_iff]

theorem «partial» (h : s.Sweeping c ttl) (now : Timestamp) :
    (Session.freeze { s with state := .aborted } now).Partial c := by
  refine ⟨rfl, ?_, h.ttls, h.passed⟩
  simp only [Session.freeze, Session.reached]
  cases hlast : s.hops.getLast? with
  | none => rfl
  | some hop =>
      have hpassed := (h.passed hop (List.mem_of_getLast? hlast)).1
      simp only
      cases hreach : hop.reaches s.target with
      | false => rfl
      | true => exact absurd (Hop.reaches_iff.mp hreach) hpassed

end Session.Sweeping

namespace World

def Logged (c : Config) (records : List TraceRecord) (turn : Turn) : Prop :=
  match turn.1 with
  | .finished outcome _ => ∃ r, turn.2.engine.records = records ++ [r] ∧ Ended c outcome r
  | _ => turn.2.engine.records = records

structure Intact (c : Config) (w : World) (turn : Turn) : Prop where
  config : turn.2.engine.config = w.engine.config
  behaviour : turn.2.connection.behaviour = w.connection.behaviour
  registry : ∃ ops, turn.2.engine.registry = w.engine.registry.after ops
  standing : turn.1.Standing turn.2.engine.registry
  sweeping : ∀ sweep, turn.1.sweep? = some sweep → sweep.session.Sweeping c sweep.ttl
  logged : Logged c w.engine.records turn

theorem Intact.of_follows {c : Config} {w w' : World} {turn : Turn} (hw : w.Follows w')
    (h : Intact c w' turn) : Intact c w turn := by
  obtain ⟨ops, -, hr⟩ := hw.registry
  obtain ⟨more, hmore⟩ := h.registry
  refine ⟨h.config.trans hw.config, h.behaviour.trans hw.behaviour, ⟨ops ++ more, ?_⟩,
    h.standing, h.sweeping, ?_⟩
  · rw [Registry.after_append, ← hr, hmore]
  · rw [← hw.records]
    exact h.logged

theorem intact_finish {c : Config} {w : World} {s : Session} (abort : Option Abort)
    (h : Ended c (match abort with
      | none => .ok (s.freeze w.civil)
      | some a => .error (a.error (s.freeze w.civil)))
      ⟨s.freeze w.civil, abort.map Abort.reason⟩) : Intact c w (w.finish s abort) :=
  ⟨rfl, rfl, ⟨[], rfl⟩, trivial, by simp [finish, Phase.sweep?], _, rfl, h⟩

theorem intact_aborted {c : Config} {w : World} {s : Session} {ttl : UInt8} {abort : Abort}
    (h : s.Sweeping c ttl) (ha : abort = .closed ∨ abort = .cancelled) :
    Intact c w (w.finish { s with state := .aborted } (some abort)) := by
  refine intact_finish _ ?_
  rcases ha with rfl | rfl
  · exact .closed (h.partial _)
  · exact .cancelled (h.partial _)

theorem intact_conclude {c : Config} {w : World} {sweep : Sweep} {hop : Hop}
    (h : sweep.session.Sweeping c sweep.ttl) (httl : hop.ttl = sweep.ttl)
    (hstate : sweep.session.state = .awaitingResponse sweep.ttl) :
    Intact c w (w.conclude sweep hop) := by
  rw [conclude_of_awaited (hstate.trans (by rw [httl]))]
  cases hends : sweep.session.endsWith hop with
  | true =>
      have hend := Ended.complete (h.complete httl hends w.civil)
      exact intact_finish none hend
  | false =>
      refine ⟨rfl, rfl, ⟨[], rfl⟩, rfl, ?_, rfl⟩
      intro next hnext
      cases hnext
      exact h.onward httl hends

theorem Heard.ttl {w : World} {target : Net.Ip} {flight : Flight} {hop : Hop} {ttl : UInt8}
    (h : Heard w target flight hop) (hf : flight.ttl = ttl)
    (ha : w.engine.registry.Assigned flight.mailbox fun e => e.ttl = ttl) : hop.ttl = ttl := by
  cases h with
  | replied hbox =>
      obtain ⟨e, ip, t, kind, he, rfl⟩ := ha.hop hop hbox
      exact he
  | evicted _ => exact hf
  | echoed => exact hf
  | late _ => exact hf

theorem intact_sweep {c : Config} {w : World} {phase : Phase} {sweep : Sweep}
    (hphase : phase.sweep? = some sweep) (hstand : phase.Standing w.engine.registry)
    (h : sweep.session.Sweeping c sweep.ttl) : Intact c w (phase, w) := by
  refine ⟨rfl, rfl, ⟨[], rfl⟩, hstand, ?_, ?_⟩
  · intro next hnext
    cases hphase.symm.trans hnext
    exact h
  · cases phase with
    | finished outcome at_ => cases hphase
    | _ => rfl

theorem intact_begun {w w' : World} {sender : Sender} (h : Sender.start w = (.ok sender, w'))
    (id : String) : Intact w.engine.config w
      (w'.settling (begun (w'.sessionTo id sender.flow.dst.ip) sender)) := by
  have hw := follows_of_start h
  have hstart : (w'.sessionTo id sender.flow.dst.ip).Sweeping w'.engine.config
      w'.engine.config.first := .start _
  refine .of_follows hw (intact_sweep rfl rfl ?_)
  rw [← hw.config]
  exact hstart.of_eq rfl rfl rfl

theorem intact_refused {w w' : World} {e : TraceError} (h : Sender.start w = (.error e, w'))
    (id : String) (target : Net.Ip) : Intact w.engine.config w
      (w'.finish { w'.sessionTo id target with state := .aborted } (some (.ofRefusal e))) := by
  have hw := follows_of_start h
  have hstart : (w'.sessionTo id target).Sweeping w'.engine.config
      w'.engine.config.first := .start _
  have hpart := hstart.partial w'.civil
  rw [hw.config] at hpart
  refine .of_follows hw (intact_finish _ ?_)
  obtain ⟨reason, rfl⟩ | ⟨fault, rfl⟩ := start_error h
  · exact .config hpart rfl
  · exact .closed hpart

theorem intact_launched {w w₀ w₁ w₂ w' : World} {sweep : Sweep} {d : Departure} {s : Sender}
    {r : Registry} (hs : w.engine.registry.Sound)
    (h : sweep.session.Sweeping w.engine.config sweep.ttl)
    (hstate : sweep.session.state = .probing sweep.ttl) (hw : w.Follows w₀)
    (hl : Sender.Launched (fun _ => True) sweep.sender w₀ sweep.ttl d s w₁ r w₂ w') :
    Intact w.engine.config w (.writing { sweep with sender := s } d, w') := by
  have hassigned := hl.assigned (hw.sound hs) (Q := fun e => e.ttl = sweep.ttl)
    (fun op _ => op.keeps_ttl _) rfl
  rw [hl.pinged] at hassigned ⊢
  have hping : Intact w.engine.config (w₂.ping d.flight.payload)
      (.writing { sweep with sender := s } d, w₂.ping d.flight.payload) :=
    intact_sweep rfl ⟨hstate, hl.probed, hassigned⟩ (h.of_eq rfl rfl rfl)
  exact .of_follows (hw.trans (hl.evolves trivial))
    ⟨hping.config, hping.behaviour, hping.registry, hping.standing, hping.sweeping, hping.logged⟩

theorem Move.intact {w : World} {phase : Phase} {turn : Turn} (hm : Move w phase turn)
    (hs : w.engine.registry.Sound) (hstand : phase.Standing w.engine.registry)
    (hsweep : ∀ sweep, phase.sweep? = some sweep →
      sweep.session.Sweeping w.engine.config sweep.ttl)
    (hopen : ∀ outcome at_, phase ≠ .finished outcome at_) :
    Intact w.engine.config w turn := by
  cases hm with
  | @opened w' id sender h => exact intact_begun h id
  | @refused w' id target e h => exact intact_refused h id target
  | paused hw ht => exact .of_follows hw (intact_sweep rfl hstand (hsweep _ rfl))
  | launched hw hl => exact intact_launched hs (hsweep _ rfl) hstand hw hl
  | @collided w' sweep giveUp wake s hw hsame =>
      have hold := hsweep sweep rfl
      exact .of_follows hw (intact_conclude (hold.of_eq rfl rfl rfl) rfl rfl)
  | @landed w' sweep d hw =>
      obtain ⟨hstate, httl, hass⟩ := hstand
      have hass' := hw.assigned (fun op _ => op.keeps_ttl _) hass
      exact .of_follows hw (intact_sweep rfl ⟨rfl, httl, hass'⟩ ((hsweep _ rfl).of_eq rfl rfl rfl))
  | @heard w' sweep flight hop hw hh =>
      obtain ⟨hstate, httl, hass⟩ := hstand
      exact .of_follows hw (intact_conclude (hsweep _ rfl) (hh.ttl httl hass) hstate)
  | @waited w' sweep flight hw hempty ht hinbox hagenda =>
      obtain ⟨hstate, httl, hass⟩ := hstand
      have hass' := hw.assigned (fun op _ => op.keeps_ttl _) hass
      exact .of_follows hw (intact_sweep rfl ⟨hstate, httl, hass'⟩ (hsweep _ rfl))
  | @aborted w' phase sweep abort hp hw ha =>
      exact .of_follows hw (intact_aborted (hsweep _ hp) ha)
  | rested => exact absurd rfl (hopen _ _)

end World

end InbandTrace
