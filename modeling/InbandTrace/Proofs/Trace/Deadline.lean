import InbandTrace.Connection.Path
import InbandTrace.Proofs.Trace.Beside
import InbandTrace.Proofs.Trace.Wire

namespace InbandTrace

def Hop.Within (hop : Hop) (limit : Span) : Prop :=
  hop.status = .timeout ∨ ∃ rtt ≤ limit, hop.rtt = some rtt

theorem Hop.Within.mono {hop : Hop} {limit limit' : Span} (h : hop.Within limit)
    (hle : limit ≤ limit') : hop.Within limit' :=
  h.imp_right fun ⟨rtt, hrtt, hsome⟩ => ⟨rtt, Nat.le_trans hrtt hle, hsome⟩

theorem Hop.within_timedOut (ttl : UInt8) (limit : Span) : (Hop.timedOut ttl).Within limit :=
  .inl rfl

theorem Hop.within_resolved {limit rtt : Span} (h : rtt ≤ limit) (ttl : UInt8)
    (responder : Net.Ip) (kind : ReplyKind) :
    (Hop.resolved ttl responder rtt kind).Within limit := .inr ⟨rtt, h, rfl⟩

def Behaviour.grace (b : Behaviour) (timeout : Span) (ttl : UInt8) : Span :=
  max timeout (b.write ttl.toNat).takes

namespace Registry

/-- Nobody but the sender stamps an entry, and no reply is from later. -/
def Operation.By (limit : Instant) : Operation → Prop
  | .resolve _ _ _ t | .packet _ _ t => t ≤ limit
  | .restamp .. => False
  | _ => True

theorem Operation.By.mono {op : Operation} {limit limit' : Instant} (h : op.By limit)
    (hle : limit ≤ limit') : op.By limit' := by
  cases op with
  | resolve token ip kind t => exact Nat.le_trans h hle
  | packet data source t => exact Nat.le_trans h hle
  | restamp token s d => exact h.elim
  | _ => trivial

theorem Operation.By.receivedAt_le {op : Operation} {limit : Instant} (h : op.By limit)
    {a : Arrival} (ha : op.arrival? = some a) : a.receivedAt ≤ limit := by
  cases op with
  | resolve token ip kind t =>
      cases ha
      exact h
  | packet data source t =>
      simp only [arrival?] at ha
      split at ha
      · cases ha
        exact h
      · cases ha
  | _ => cases ha

theorem holding_apply {r : Registry} {op : Operation} {n : Nat} {hop : Hop}
    (h : (r.apply op).2.mailbox? n = some (.holding hop)) :
    r.mailbox? n = some (.holding hop) ∨ ∃ a, op.arrival? = some a ∧
      ∃ e ∈ r.entries, e.mailbox = n ∧ e.token = a.token ∧ hop = a.hop e.ttl e.sentAt := by
  cases ha : op.arrival? with
  | some a =>
      rw [(apply_of_arrival ha r).2] at h
      rcases holding_of_resolve h with hold | ⟨e, he, htoken, hn, rfl⟩
      · exact .inl hold
      · exact .inr ⟨a, rfl, e, he, hn, htoken, rfl⟩
  | none =>
      refine .inl ?_
      cases op with
      | register token ttl s d =>
          simp only [apply] at h
          split at h
          · exact h
          · rename_i hr
            exact holding_of_register hr h
      | resolve token ip kind t => cases ha
      | restamp token s d => exact h
      | release token => exact holding_of_release h
      | packet data source t => rwa [apply_of_malformed ha] at h
      | reap now => exact holding_of_reap h
      | receive k => exact holding_of_receive h
      | drop k => exact holding_of_drop h

structure Timed (r : Registry) (n : Nat) (sentAt : Instant) (limit : Span) : Prop where
  assigned : r.Assigned n fun e => e.sentAt = sentAt
  within : ∀ hop, r.mailbox? n = some (.holding hop) → hop.Within limit

namespace Timed

variable {r : Registry} {n : Nat} {sentAt : Instant} {limit : Span}

theorem apply (h : r.Timed n sentAt limit) {op : Operation} (hop : op.By (sentAt + limit)) :
    (r.apply op).2.Timed n sentAt limit := by
  refine ⟨h.assigned.apply ?_, ?_⟩
  · cases op with
    | restamp token s d => exact hop.elim
    | _ => trivial
  · intro hop' hbox
    rcases holding_apply hbox with hold | ⟨a, ha, e, he, hn, -, rfl⟩
    · exact h.within hop' hold
    · have hby := hop.receivedAt_le ha
      have hsent : e.sentAt = sentAt := h.assigned.entry e he hn
      refine Hop.within_resolved ?_ ..
      rw [hsent]
      exact Nat.sub_le_iff_le_add'.mpr hby

theorem after (h : r.Timed n sentAt limit) {ops : List Operation}
    (hops : ∀ op ∈ ops, op.By (sentAt + limit)) : (r.after ops).Timed n sentAt limit := by
  induction ops generalizing r with
  | nil => exact h
  | cons op rest ih =>
      exact ih (h.apply (hops op List.mem_cons_self)) fun op' hop' =>
        hops op' (List.mem_cons_of_mem _ hop')

end Timed

theorem Sound.timed {r r' : Registry} (h : r.Sound) {token : Token} {ttl : UInt8} {s d : Instant}
    {n : Nat} (hr : r.register token ttl s d = some (n, r')) (limit : Span) :
    r'.Timed n s limit := by
  refine ⟨h.assigned hr rfl, ?_⟩
  intro hop hbox
  rw [h.mailbox?_register hr, if_pos rfl] at hbox
  cases hbox

end Registry

/-- Others neither answer probes in the registry nor stamp them. Replies are captured datagrams. -/
def Event.Abstains : Event → Prop
  | .registry (.resolve ..) | .registry (.packet ..) | .registry (.restamp ..) => False
  | _ => True

theorem Event.Abstains.by {x : Event} (h : x.Abstains) {due : Instant} {op : Registry.Operation}
    (hop : x.operation? due = some op) : op.By due := by
  cases x with
  | packet data source =>
      cases hop
      exact Nat.le_refl due
  | registry op' =>
      cases hop
      cases op with
      | resolve token ip kind t => exact h.elim
      | packet data source t => exact h.elim
      | restamp token s d => exact h.elim
      | _ => trivial
  | reap ahead =>
      cases hop
      trivial
  | _ => cases hop

theorem Agenda.operations_by {es : Agenda} {now : Instant}
    (hes : ∀ x ∈ es, x.1 ≤ now ∧ x.2.Abstains) : ∀ op ∈ es.operations, op.By now := by
  intro op hin
  obtain ⟨x, hx, hop⟩ := List.mem_filterMap.mp hin
  obtain ⟨hdue, habstains⟩ := hes x hx
  exact (habstains.by hop).mono hdue

namespace World

theorem Lapse.timed {es : Agenda} {w w' : World} (hw : Lapse es w w')
    (hes : ∀ x ∈ es, x.1 ≤ w.now ∧ x.2.Abstains) {n : Nat} {sentAt : Instant} {limit : Span}
    (h : w.engine.registry.Timed n sentAt limit) (hnow : w.now ≤ sentAt + limit) :
    w'.engine.registry.Timed n sentAt limit := by
  rw [hw.registry]
  exact h.after fun op hop => (Agenda.operations_by hes op hop).mono hnow

end World

structure Flight.Running (b : Behaviour) (timeout : Span) (now : Instant) (r : Registry)
    (f : Flight) : Prop where
  deadline : f.deadline = f.sentAt + timeout
  now : now ≤ f.sentAt + b.grace timeout f.ttl
  timed : r.Timed f.mailbox f.sentAt (b.grace timeout f.ttl)

def Phase.Running (b : Behaviour) (timeout : Span) (now : Instant) (r : Registry) : Phase → Prop
  | .settling sweep _ _ => sweep.sender.hopTimeout = timeout
  | .writing sweep d => sweep.sender.hopTimeout = timeout ∧ d.flight.Running b timeout now r ∧
      d.done = d.flight.sentAt + (b.write d.flight.ttl.toNat).takes
  | .awaiting sweep flight => sweep.sender.hopTimeout = timeout ∧ flight.Running b timeout now r
  | _ => True

structure Trace.Prompt (c : Config) (now : Instant) (e : Engine) (t : Trace) : Prop where
  brings : t.connection.behaviour.Brings Event.Abstains
  running : t.phase.Running t.connection.behaviour c.hopTimeout now e.registry
  hops : ∀ hop ∈ t.phase.hops, hop.Within (t.connection.behaviour.grace c.hopTimeout hop.ttl)

theorem Sender.hopTimeout_start {w w' : World} {s : Sender} (h : start w = (.ok s, w')) :
    s.hopTimeout = w.engine.config.hopTimeout := by
  have hlapse := w.lapse_statistics
  unfold start at h
  split at h
  · cases h
  split at h
  · cases h
  rename_i info w₁ hinfo
  rw [hinfo] at hlapse
  split at h
  · cases h
  cases h
  exact congrArg Config.hopTimeout hlapse.config

theorem Sender.done_of_transmit {s : Sender} {w w' : World} {ttl : UInt8} {n m : Nat}
    {d : Departure} (h : s.transmit w ttl n m = (.ok d, w')) :
    d.done = d.flight.sentAt + (w.connection.behaviour.write ttl.toNat).takes := by
  simp only [transmit] at h
  split at h
  · cases h
  rename_i w₀ hset
  have hlow : w₀.connection.ttl = ttl.toNat := by
    rw [show w₀ = (w.setTtl ttl.toNat).2 by rw [hset]]
    exact World.ttl_setTtl (by rw [hset])
  have hsame : w₀.connection.behaviour = w.connection.behaviour := by
    rw [show w₀ = (w.setTtl ttl.toNat).2 by rw [hset]]
    exact (World.evolves_setTtl (P := fun _ => True) _ _).behaviour
  split at h
  · cases h
  cases h
  have hev := World.evolves_catchUp _ (World.allowed_true
    (w₀.withRegistry (w₀.engine.registry.restamp s.token w₀.now (w₀.now + s.hopTimeout)).2))
  simp only [World.ttl_catchUp, hev.behaviour]
  simp only [World.withRegistry, hlow, hsame]

theorem Sender.done_of_launch {s s' : Sender} {w w' : World} {ttl : UInt8} {d : Departure}
    (h : s.launch w ttl = (.ok d, s', w')) :
    d.done = d.flight.sentAt + (w.connection.behaviour.write ttl.toNat).takes := by
  simp only [launch] at h
  split at h
  · cases h
  · rename_i s₁ m r hres
    split at h
    · rename_i d₁ w₁ hsend
      cases h
      rw [done_of_transmit hsend]
      exact congrArg (fun b : Behaviour => d.flight.sentAt + (b.write ttl.toNat).takes)
        w.lapse_statistics.behaviour
    · cases h

namespace World

theorem done_of_probe {w w' : World} {sweep next : Sweep} {d : Departure}
    (hstate : sweep.session.state = .probing sweep.ttl)
    (h : w.probe sweep = (.writing next d, w')) :
    d.done = d.flight.sentAt + (w.connection.behaviour.write sweep.ttl.toNat).takes := by
  have hopen : sweep.session.state.isTerminal = false := by
    rw [hstate]
    rfl
  unfold probe at h
  split at h
  · rename_i hlaunch
    cases h
    exact Sender.done_of_launch hlaunch
  · rw [await_of_probing hstate, conclude_of_awaited rfl] at h
    split at h <;> cases h
  · rw [giveUp_of_open hopen] at h
    cases h
  · rw [giveUp_of_open hopen] at h
    cases h

theorem done_of_probeWhenQuiet {w w' : World} {sweep next : Sweep} {giveUp : Instant}
    {d : Departure} (hstate : sweep.session.state = .probing sweep.ttl)
    (h : w.probeWhenQuiet sweep giveUp = (.writing next d, w')) :
    d.done = d.flight.sentAt + (w.connection.behaviour.write sweep.ttl.toNat).takes := by
  simp only [probeWhenQuiet] at h
  split at h
  · rw [done_of_probe hstate h, w.lapse_statistics.behaviour]
  · cases h

end World

theorem Trace.done_of_turn {t : Trace} {now : Instant} {e : Engine} {w : World}
    {sweep next : Sweep} {giveUp wake : Instant} {d : Departure}
    (hstand : t.phase.Standing e.registry) (hphase : t.phase = .settling sweep giveUp wake)
    (h : t.turn now e = (.writing next d, w)) :
    d.done = d.flight.sentAt + (t.connection.behaviour.write sweep.ttl.toNat).takes := by
  have hopen := hstand.isOpen (by rw [hphase, Phase.sweep?])
  rw [hphase] at hstand
  simp only [turn, hphase] at h
  split at h
  · rw [World.giveUp_of_open hopen] at h
    cases h
  · exact World.done_of_probeWhenQuiet hstand h

namespace World

variable {c : Config} {b : Behaviour} {w : World} {phase : Phase} {es : Agenda} {turn : Turn}

theorem Course.within (hc : Course w phase es turn) (hstand : phase.Standing w.engine.registry)
    (hrun : phase.Running b c.hopTimeout w.now w.engine.registry)
    (hhops : ∀ hop ∈ phase.hops, hop.Within (b.grace c.hopTimeout hop.ttl)) :
    ∀ hop ∈ turn.1.hops, hop.Within (b.grace c.hopTimeout hop.ttl) := by
  have hmore : ∀ {last : Hop}, last.Within (b.grace c.hopTimeout last.ttl) →
      ∀ hop ∈ phase.hops ++ [last], hop.Within (b.grace c.hopTimeout hop.ttl) := by
    intro last hlast hop hmem
    rcases List.mem_append.mp hmem with hmem | hmem
    · exact hhops hop hmem
    · rw [List.mem_singleton.mp hmem]
      exact hlast
  have hlost : ∀ ttl : UInt8, ∀ hop ∈ phase.hops ++ [.timedOut ttl],
      hop.Within (b.grace c.hopTimeout hop.ttl) := fun ttl => hmore (Hop.within_timedOut ..)
  cases hc with
  | opened hw hs hstart => exact hhops
  | refused id target hw ha => rcases ha with rfl | ⟨reason, rfl⟩ <;> exact hhops
  | cancelled => exact hhops
  | paused hw ht => exact hhops
  | collided hw hr =>
      rw [hops_proceed]
      exact hlost _
  | unsent hw hr hw' => exact hhops
  | launched hw hr hset hw' hd => exact hhops
  | landed hw hset => exact hhops
  | crashed hw => exact hhops
  | calledOff => exact hhops
  | @replied sweep flight hop hbox httl =>
      rw [hops_proceed]
      refine hmore ?_
      rw [httl, ← hstand.2.1]
      exact hrun.2.timed.within hop hbox
  | evicted httl =>
      rw [hops_proceed]
      exact hlost _
  | @echoed es w' sweep flight hw hpong httl =>
      rw [hops_proceed]
      refine hmore (Hop.within_resolved ?_ ..)
      rw [← httl]
      exact Nat.sub_le_iff_le_add'.mpr hrun.2.now
  | late hw ht httl =>
      rw [hops_proceed]
      exact hlost _
  | hungUp hw => exact hhops
  | waited hw ht => exact hhops
  | rested => exact hhops

theorem running_proceed {timeout : Span} {now : Instant} {r : Registry} {sweep : Sweep}
    (h : sweep.sender.hopTimeout = timeout) (hop : Hop) :
    (w.proceed sweep hop).1.Running b timeout now r := by
  unfold proceed
  split
  · trivial
  · exact h

theorem Course.running (hc : Course w phase es turn) (hsound : w.engine.registry.Sound)
    (hes : ∀ x ∈ es, x.1 ≤ w.now ∧ x.2.Abstains)
    (hdone : ∀ sweep giveUp wake next d, phase = .settling sweep giveUp wake →
      turn.1 = .writing next d →
      d.done = d.flight.sentAt + (b.write sweep.ttl.toNat).takes)
    (hrun : phase.Running b w.engine.config.hopTimeout w.now w.engine.registry) :
    turn.1.Running b w.engine.config.hopTimeout w.now turn.2.engine.registry := by
  cases hc with
  | opened hw hs hstart => exact Sender.hopTimeout_start (Prod.ext hstart rfl)
  | refused id target hw ha => trivial
  | cancelled => trivial
  | paused hw ht => exact hrun
  | @collided es w' sweep giveUp wake s token hw hr =>
      refine running_proceed ?_ _
      change s.hopTimeout = _
      rw [Sender.sender_of_reserve hr]
      exact hrun
  | unsent hw hr hw' => trivial
  | @launched es es' w' w'' sweep giveUp wake s m r d hw hr hset hw' hd =>
      obtain ⟨hs, hreg⟩ := Sender.reserve_ok hr
      have htime : s.hopTimeout = w.engine.config.hopTimeout := by
        rw [hs]
        exact hrun
      have hsound' : w'.engine.registry.Sound := hw.registry ▸ hsound.after _
      have hlow : ((w'.withRegistry r).setTtl sweep.ttl.toNat).2.now = w.now := hw.now
      have htimed := hw'.timed (fun x hx => hlow ▸ hes x (List.mem_append_right _ hx))
        (hsound'.timed hreg (b.grace w.engine.config.hopTimeout sweep.ttl))
        (hlow ▸ Nat.le_add_right _ _)
      have hdone' := hdone sweep giveUp wake _ d rfl rfl
      refine ⟨htime, ⟨?_, ?_, ?_⟩, ?_⟩
      · rw [hd, ← htime]
      · rw [hd]
        exact Nat.le_add_right _ _
      · rw [hd]
        exact htimed
      · rw [hdone', hd]
  | @landed es w' sweep d hw hset =>
      obtain ⟨htime, hflight, -⟩ := hrun
      exact ⟨htime, hflight.deadline, hflight.now, hw.timed hes hflight.timed hflight.now⟩
  | crashed hw => trivial
  | calledOff => trivial
  | replied hbox httl => exact running_proceed hrun.1 _
  | evicted httl => exact running_proceed hrun.1 _
  | echoed hw hpong httl => exact running_proceed hrun.1 _
  | late hw ht httl => exact running_proceed hrun.1 _
  | hungUp hw => trivial
  | @waited es w' sweep flight hw ht =>
      obtain ⟨htime, hflight⟩ := hrun
      exact ⟨htime, hflight.deadline, hflight.now, hw.timed hes hflight.timed hflight.now⟩
  | rested => trivial

end World

theorem Registry.Custody.timed {P : Token → Prop} {before after : Option Flight}
    {ops : List Registry.Operation} {r r' : Registry} (hc : Custody P before ops after r r')
    {n : Nat} {sentAt : Instant} {limit : Span} (hops : ∀ op ∈ ops, op.By (sentAt + limit))
    (h : r.Timed n sentAt limit) : r'.Timed n sentAt limit := by
  obtain ⟨all, hall, rfl⟩ := hc.exists_after hops (fun _ _ _ _ _ => trivial) (fun _ => trivial)
    (fun _ => trivial) (fun _ => trivial)
  exact h.after hall

namespace Phase.Running

variable {b : Behaviour} {timeout : Span} {now : Instant} {r r' : Registry} {phase : Phase}

theorem beside (h : phase.Running b timeout now r)
    (htimed : ∀ f ∈ phase.flight?, f.Running b timeout now r →
      r'.Timed f.mailbox f.sentAt (b.grace timeout f.ttl)) :
    phase.Running b timeout now r' := by
  cases phase with
  | writing sweep d =>
      obtain ⟨htime, hflight, hdone⟩ := h
      exact ⟨htime, ⟨hflight.deadline, hflight.now, htimed _ rfl hflight⟩, hdone⟩
  | awaiting sweep flight =>
      obtain ⟨htime, hflight⟩ := h
      exact ⟨htime, hflight.deadline, hflight.now, htimed _ rfl hflight⟩
  | opening => trivial
  | settling sweep giveUp wake => exact h
  | finished outcome at_ => trivial

end Phase.Running

theorem Trace.running_wait {t : Trace} {b : Behaviour} {timeout : Span} {now m : Instant}
    {e : Engine} (h : t.phase.Running b timeout now e.registry)
    (hwake : ∀ k, t.wake? = some k → m ≤ k) :
    t.phase.Running b timeout (max now m) e.registry := by
  unfold wake? at hwake
  cases hphase : t.phase with
  | writing sweep d =>
      rw [hphase] at h hwake
      obtain ⟨htime, hflight, hdone⟩ := h
      have hlate := hwake _ rfl
      have hspan := Nat.le_max_right timeout (b.write d.flight.ttl.toNat).takes
      refine ⟨htime, ⟨hflight.deadline, Nat.max_le.mpr ⟨hflight.now, ?_⟩, hflight.timed⟩, hdone⟩
      rw [hdone] at hlate
      exact Nat.le_trans hlate (Nat.add_le_add_left hspan _)
  | awaiting sweep flight =>
      rw [hphase] at h hwake
      obtain ⟨htime, hflight⟩ := h
      have hlate := Nat.le_trans (hwake _ rfl) (Agenda.foldl_min_le _ flight.deadline).1
      have hspan := Nat.le_max_left timeout (b.write flight.ttl.toNat).takes
      refine ⟨htime, hflight.deadline, Nat.max_le.mpr ⟨hflight.now, ?_⟩, hflight.timed⟩
      rw [hflight.deadline] at hlate
      exact Nat.le_trans hlate (Nat.add_le_add_left hspan _)
  | opening => trivial
  | settling sweep giveUp wake =>
      rw [hphase] at h
      exact h
  | finished outcome at_ => trivial

theorem Fleet.prompt_of_reaches {e : Engine} {now : Instant} {setups : List Trace.Setup}
    (hs : e.registry.Sound) (hb : ∀ s ∈ setups, s.behaviour.Brings Event.Abstains) {f : Fleet}
    (hr : Relation.ReflTransGen Step (e.fleet now setups) f) :
    f.Each fun _ now e' t => t.OnCourse e.config t.connection.behaviour now e' ∧
      t.Prompt e.config now e' := by
  refine Each.onCourse ?_ ?_ ?_ (each_fleet ?_) hr
  · intro i now e' t es hcourse hprompt hc hnext
    have hes := hnext.happens hcourse.kept hc hprompt.brings
    have hsame : (t.step now e').1.connection.behaviour = t.connection.behaviour := hnext.behaviour
    have hrun := hprompt.running
    have hstand := hcourse.valid.standing
    rw [← hcourse.config] at hrun
    refine ⟨?_, ?_, ?_⟩
    · rw [hsame]
      exact hprompt.brings
    · rw [hsame, ← hcourse.config]
      refine hc.running hcourse.sound hes ?_ hrun
      intro sweep giveUp wake next d hphase hwriting
      exact Trace.done_of_turn hstand hphase (Prod.ext hwriting rfl)
    · rw [hsame]
      exact hc.within hstand hprompt.running hprompt.hops
  · intro i j now e' t u es hne hprompt hprompt' hcourse' hc hnext'
    have hes := hnext'.happens hcourse'.kept hc hprompt'.brings
    refine ⟨hprompt.brings, hprompt.running.beside ?_, hprompt.hops⟩
    intro f hf hflight
    have hcustody := hc.custody (P := fun _ => True) fun _ _ _ _ => trivial
    exact hcustody.timed (fun op hop => (Agenda.operations_by hes op hop).mono hflight.now)
      hflight.timed
  · intro i now e' t m hprompt hidle hwake
    exact ⟨hprompt.brings, Trace.running_wait hprompt.running hwake, hprompt.hops⟩
  · intro i s hs'
    refine ⟨.start s now hs, hb s (List.mem_of_getElem? hs'), trivial, ?_⟩
    intro hop hmem
    cases hmem

/-- A hop is no later than the timeout, unless its probe was still being written. -/
theorem Engine.rtt_of_run (e : Engine) (history : List Registry.Operation) (now : Instant)
    (setups : List Trace.Setup) (hb : ∀ s ∈ setups, s.behaviour.Brings Event.Abstains) {f : Fleet}
    (hf : Relation.ReflTransGen Fleet.Step ((e.withHistory history).fleet now setups) f)
    {t : Trace} (ht : t ∈ f.traces) :
    let b := t.connection.behaviour
    let timeout := e.config.hopTimeout
    (∀ hop ∈ t.phase.hops, hop.Within (b.grace timeout hop.ttl)) ∧
      ∀ hop ∈ t.phase.hops, (b.write hop.ttl.toNat).takes ≤ timeout → hop.Within timeout := by
  intro b timeout
  have hsound : (e.withHistory history).registry.Sound := Registry.sound_after_empty history
  obtain ⟨i, hi⟩ := List.getElem?_of_mem ht
  obtain ⟨-, hprompt⟩ := Fleet.prompt_of_reaches hsound hb hf i t hi
  refine ⟨hprompt.hops, ?_⟩
  intro hop hmem hbrief
  exact (hprompt.hops hop hmem).mono (Nat.max_le.mpr ⟨Nat.le_refl _, hbrief⟩)

def Engine.hurried : Engine where
  config := { Config.default with maxHops := 1, hopTimeout := Span.ofMillis 100 }
  wallClock := fun _ => ⟨0, 0⟩

def Trace.Setup.slow : Setup where
  id := "a"
  behaviour :=
    { localAddress := .ok (.v4 ⟨192, 0, 2, 10⟩ 443)
      peerAddress := fun _ => .ok (.v4 ⟨198, 51, 100, 20⟩ 51234)
      write := fun _ =>
        { pause := some (Span.ofMillis 500)
          reactions := [(Span.ofMillis 300, .quoting
            (.between (.v4 ⟨192, 0, 2, 10⟩ 443) (.v4 ⟨198, 51, 100, 20⟩ 51234)) ⟨0, 0, false⟩
            (.v4 ⟨10, 0, 0, 1⟩) .timeExceeded 0)] } }

def Fleet.slow : Fleet := ((Engine.hurried.withHistory []).fleet 0 [Trace.Setup.slow]).run

theorem Fleet.hops_slow : slow.traces.map (fun t => t.phase.hops) =
    [[.resolved 1 (.v4 ⟨10, 0, 0, 1⟩) (Span.ofMillis 300) .timeExceeded]] := by decide +kernel

theorem Fleet.traces_slow : ∃ t, slow.traces = [t] ∧
    t.phase.hops = [.resolved 1 (.v4 ⟨10, 0, 0, 1⟩) (Span.ofMillis 300) .timeExceeded] := by
  obtain ⟨t, ht⟩ := List.length_eq_one_iff.mp
    (length_reaches (reaches_run ((Engine.hurried.withHistory []).fleet 0 [.slow])))
  have hhops := hops_slow
  rw [show slow.traces = [t] from ht] at hhops
  exact ⟨t, ht, List.singleton_inj.mp hhops⟩

theorem Engine.rtt_of_slow_run :
    ∃ t, Fleet.slow.traces = [t] ∧
      t.phase.hops = [.resolved 1 (.v4 ⟨10, 0, 0, 1⟩) (Span.ofMillis 300) .timeExceeded] ∧
      t.connection.behaviour.grace (Span.ofMillis 100) 1 = Span.ofMillis 500 ∧
      ∀ hop ∈ t.phase.hops,
        hop.Within (t.connection.behaviour.grace (Span.ofMillis 100) hop.ttl) := by
  have hbrings : ∀ s ∈ [Trace.Setup.slow], s.behaviour.Brings Event.Abstains := by
    intro s hs
    rw [List.mem_singleton.mp hs]
    refine ⟨nofun, ?_⟩
    intro ttl r hr payload
    rw [List.mem_singleton.mp hr]
    trivial
  have hgrace : Fleet.slow.traces.map
      (fun t => t.connection.behaviour.grace (Span.ofMillis 100) 1) = [Span.ofMillis 500] := by
    decide +kernel
  obtain ⟨t, ht, hhops⟩ := Fleet.traces_slow
  have hmem : t ∈ Fleet.slow.traces := ht ▸ List.mem_singleton_self t
  obtain ⟨hwithin, -⟩ := Engine.rtt_of_run .hurried [] 0 [.slow] hbrings (Fleet.reaches_run _) hmem
  rw [ht] at hgrace
  exact ⟨t, ht, hhops, List.singleton_inj.mp hgrace, hwithin⟩

theorem Engine.belated_hop_of_slow_run :
    ∃ t, Fleet.slow.traces = [t] ∧ ∃ hop ∈ t.phase.hops,
      ¬ hop.Within Engine.hurried.config.hopTimeout := by
  obtain ⟨t, ht, hhops⟩ := Fleet.traces_slow
  refine ⟨t, ht, _, hhops ▸ List.mem_singleton_self _, ?_⟩
  rintro (hlost | ⟨rtt, hle, hrtt⟩)
  · cases hlost
  · cases hrtt
    exact absurd hle (by decide)

end InbandTrace
