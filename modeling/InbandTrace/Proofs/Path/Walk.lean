import InbandTrace.Proofs.Path.Answer
import InbandTrace.Proofs.Trace.Termination

namespace InbandTrace

namespace Path

variable {p : Path} {target : Net.Ip} {timeout : Span} {maxHops ttl : UInt8}

theorem ttl_hop : (p.hop target timeout ttl).ttl = ttl := by
  unfold hop
  split
  · rfl
  · split <;> rfl
  · split
    · rfl
    · split <;> rfl

theorem walkFrom_of_end
    (h : ((p.hop target timeout ttl).reaches target || decide (maxHops ≤ ttl)) = true)
    (more : Nat) : p.walkFrom target timeout maxHops more ttl = [p.hop target timeout ttl] := by
  cases more with
  | zero => rfl
  | succ more => rw [walkFrom, if_pos h]

theorem walkFrom_of_onward
    (h : ((p.hop target timeout ttl).reaches target || decide (maxHops ≤ ttl)) = false) :
    p.walkFrom target timeout maxHops (255 - ttl.toNat) ttl =
      p.hop target timeout ttl ::
        p.walkFrom target timeout maxHops (255 - (ttl + 1).toNat) (ttl + 1) := by
  have hlt : ttl < maxHops := by
    simp only [Bool.or_eq_false_iff, decide_eq_false_iff_not, UInt8.not_le] at h
    exact h.2
  have hnext := Session.toNat_add_one_of_lt hlt
  have hmax := (ttl + 1).toNat_lt
  have hmore : 255 - ttl.toNat = (255 - (ttl + 1).toNat) + 1 := by omega
  rw [hmore, walkFrom, h]
  rfl

theorem length_walkFrom_pos (p : Path) (target : Net.Ip) (timeout : Span) (maxHops ttl : UInt8)
    (more : Nat) : 0 < (p.walkFrom target timeout maxHops more ttl).length := by
  cases more with
  | zero => exact Nat.zero_lt_one
  | succ more =>
      rw [walkFrom]
      split
      · exact Nat.zero_lt_one
      · exact Nat.succ_pos _

end Path

theorem World.suffix_of_listen {w w' : World} {f : Flight} {sign : Sign}
    (h : w.listen f = (sign, w')) : w'.connection.agenda <:+ w.connection.agenda := by
  have hagenda := w.agenda_listen f
  rw [h] at hagenda
  rw [hagenda]
  exact List.dropWhile_suffix _

theorem World.mk_of_now {w : World} {now : Instant} (h : w.now = now) :
    (⟨now, w.engine, w.connection⟩ : World) = w := by
  subst h
  rfl

namespace Crossing

variable (x : Crossing)

structure Progress (sweep : Sweep) (done : Nat) : Prop where
  target : sweep.session.target = x.target
  maxHops : sweep.session.maxHops = x.engine.config.maxHops
  done : sweep.session.hops.length = done
  walked : x.walk = sweep.session.hops ++ x.path.walkFrom x.target x.timeout
    x.engine.config.maxHops (255 - sweep.ttl.toNat) sweep.ttl

def Awaits (k : Nat) (f : Flight) (agenda : Agenda) : Prop :=
  ∀ y ∈ agenda, x.Stray k y.2 ∨ ∃ r ∈ x.reactions f, y = (f.sentAt + r.1, r.2)

def Stage (now : Instant) (w : World) : Phase → Prop
  | .opening =>
      w.Calm x now 0 (fun r => r.Clear x.flow x.opened) ∧
        w.connection.ttl = x.behaviour.ttl ∧ ∀ y ∈ w.connection.agenda, x.Stray 0 y.2
  | .settling sweep _ wake =>
      wake ≤ now ∧ sweep.session.state = .probing sweep.ttl ∧ ∃ k, sweep.sender = x.sender k ∧
        x.Progress sweep k ∧ w.Calm x now k (fun r => r.Clear x.flow x.opened) ∧
        ∀ y ∈ w.connection.agenda, x.Stray k y.2
  | .writing sweep d =>
      sweep.session.state = .probing sweep.ttl ∧ ∃ k n, sweep.sender = x.sender (k + 1) ∧
        x.Progress sweep k ∧ d = ⟨x.flight now (k + 1) sweep.ttl n, false, now, none⟩ ∧
        w.Calm x now k (x.Waits d.flight) ∧ x.Awaits k d.flight w.connection.agenda ∧
        ∀ r ∈ x.reactions d.flight, (now + r.1, r.2) ∈ w.connection.agenda
  | .awaiting sweep f =>
      sweep.session.state = .awaitingResponse sweep.ttl ∧ now ≤ f.deadline ∧
        ∃ k n sentAt, sweep.sender = x.sender (k + 1) ∧ x.Progress sweep k ∧
          f = x.flight sentAt (k + 1) sweep.ttl n ∧ x.Awaits k f w.connection.agenda ∧
          (w.Calm x now k (x.Waits f) ∧
              (∀ r ∈ x.reactions f, (sentAt + r.1, r.2) ∈ w.connection.agenda) ∨
            w.Calm x now k (x.Holds f (x.hop sweep.ttl)))
  | .finished outcome _ => ∃ r, outcome = .ok r ∧ r.target = x.target ∧ r.hops = x.walk

structure Reached (now : Instant) (turn : Turn) : Prop where
  time : turn.2.now = now
  stage : x.Stage now turn.2 turn.1
  ordered : turn.2.connection.agenda.Ordered
  ahead : ∀ y ∈ turn.2.connection.agenda, now ≤ y.1

variable {x} {now : Instant} {w : World} {sweep : Sweep} {k n : Nat}

theorem Progress.lt (hx : x.Fair) (h : x.Progress sweep k) : k + 1 ≤ 96 := by
  have hshort := hx.short
  have hpos := x.path.length_walkFrom_pos x.target x.timeout x.engine.config.maxHops sweep.ttl
    (255 - sweep.ttl.toNat)
  rw [h.walked, List.length_append, h.done] at hshort
  omega

theorem reached_conclude (h : x.Progress sweep k) (hsender : sweep.sender = x.sender (k + 1))
    (hstate : sweep.session.state = .awaitingResponse sweep.ttl)
    (hcalm : w.Calm x now (k + 1) fun r => r.Clear x.flow x.opened)
    (hall : ∀ y ∈ w.connection.agenda, x.Stray (k + 1) y.2)
    (hord : w.connection.agenda.Ordered) (hahead : ∀ y ∈ w.connection.agenda, now ≤ y.1) :
    x.Reached now (w.conclude sweep (x.hop sweep.ttl)) := by
  have httl : (x.hop sweep.ttl).ttl = sweep.ttl := Path.ttl_hop
  have hends : sweep.session.endsWith (x.hop sweep.ttl) =
      ((x.hop sweep.ttl).reaches x.target || decide (x.engine.config.maxHops ≤ sweep.ttl)) := by
    rw [Session.endsWith, h.target, h.maxHops, httl]
  rw [World.conclude_of_awaited (hstate.trans (by rw [httl])), hends]
  cases hlast : (x.hop sweep.ttl).reaches x.target ||
      decide (x.engine.config.maxHops ≤ sweep.ttl) with
  | true =>
      rw [if_pos rfl]
      refine ⟨hcalm.now, ⟨_, rfl, h.target, ?_⟩, hord, hahead⟩
      rw [h.walked, Path.walkFrom_of_end hlast]
      rfl
  | false =>
      simp only [Bool.false_eq_true, if_false]
      refine ⟨hcalm.now, ⟨Nat.le_of_eq hcalm.now, rfl, k + 1, hsender, ?_, hcalm, hall⟩, hord,
        hahead⟩
      refine ⟨h.target, h.maxHops, ?_, ?_⟩
      · simp [World.Sweep.onward, h.done]
      · rw [h.walked, Path.walkFrom_of_onward hlast]
        simp only [World.Sweep.onward, httl, List.append_assoc, List.singleton_append]
        rfl

theorem start_of_calm (hx : x.Fair) (h : w.Calm x now 0 fun r => r.Clear x.flow x.opened)
    (httl : w.connection.ttl = x.behaviour.ttl)
    (hall : ∀ y ∈ w.connection.agenda, x.Stray 0 y.2) :
    ∃ w', Sender.start w = (.ok (x.sender 0), w') ∧
      w'.Calm x now 0 (fun r => r.Clear x.flow x.opened) ∧
      w'.connection.agenda <:+ w.connection.agenda := by
  obtain ⟨w', hstatistics, hasked, hsuffix, hsame⟩ := h.statistics hx (x.stable_clear 0) hall
  have hflow : Sender.flowOf w.connection.behaviour = .ok x.flow := by
    rw [h.behaviour]
    exact hx.flow
  have hconfig : w'.engine.config = x.engine.config := by rw [hasked.engine]
  refine ⟨w', ?_, hasked, hsuffix⟩
  simp only [Sender.start, hflow, hstatistics, hasked.behaviour, hx.ttlFault, hsame, httl, hconfig]
  rfl

theorem reached_opening (hx : x.Fair) (h : x.Stage now w .opening)
    (hord : w.connection.agenda.Ordered) (hahead : ∀ y ∈ w.connection.agenda, now ≤ y.1)
    (id : String) : x.Reached now (w.opening id) := by
  obtain ⟨hcalm, httl, hall⟩ := h
  obtain ⟨w', hstart, hcalm', hsuffix⟩ := start_of_calm hx hcalm httl hall
  have hconfig : w'.engine.config = x.engine.config := by rw [hcalm'.engine]
  have hidle : (w'.sessionTo id (x.sender 0).flow.dst.ip).state = .idle := rfl
  simp only [World.opening, hstart, Session.begin_of_idle hidle]
  refine ⟨hcalm'.now, ⟨Nat.le_of_eq hcalm'.now, rfl, 0, rfl, ?_, hcalm', ?_⟩,
    hord.suffix hsuffix, fun y hy => hahead y (hsuffix.subset hy)⟩
  · refine ⟨rfl, ?_, rfl, ?_⟩
    · simp only [World.sessionTo, Session.start, hconfig]
    · simp only [World.sessionTo, Session.start, hconfig]
      rfl
  · exact fun y hy => hall y (hsuffix.subset hy)

theorem reached_settling (hx : x.Fair) {giveUp wake : Instant}
    (h : x.Stage now w (.settling sweep giveUp wake)) (hord : w.connection.agenda.Ordered)
    (hahead : ∀ y ∈ w.connection.agenda, now ≤ y.1) :
    x.Reached now (w.probeWhenQuiet sweep giveUp) := by
  obtain ⟨-, hstate, k, hsender, hprogress, hcalm, hall⟩ := h
  have hmax := hprogress.lt hx
  have hquiet : Settle.quiet (.ok x.info) = true := rfl
  obtain ⟨w₁, hstatistics, hasked, hsuffix, -⟩ := hcalm.statistics hx (x.stable_clear k) hall
  obtain ⟨n, w', hlaunch, hsent, rest, hrest, hagenda⟩ :=
    hasked.launch hx (fun y hy => hall y (hsuffix.subset hy)) hmax sweep.ttl
  rw [← hsender] at hlaunch
  simp only [World.probeWhenQuiet, hstatistics, hquiet, Bool.true_or, if_true, World.probe, hlaunch]
  have hold := hrest.trans hsuffix
  refine ⟨hsent.now, ⟨hstate, k, n, rfl, ?_, rfl, hsent, ?_, ?_⟩, ?_, ?_⟩
  · exact ⟨hprogress.target, hprogress.maxHops, hprogress.done, hprogress.walked⟩
  · intro y hy
    rw [hagenda] at hy
    rcases Agenda.mem_scheduleAll.mp hy with ⟨r, hr, rfl⟩ | hy
    · exact .inr ⟨r, hr, rfl⟩
    · exact .inl (hall y (hold.subset hy))
  · intro r hr
    rw [hagenda]
    exact Agenda.mem_scheduleAll.mpr (.inl ⟨r, hr, rfl⟩)
  · rw [hagenda]
    exact (hord.suffix hold).scheduleAll _ _
  · intro y hy
    rw [hagenda] at hy
    rcases Agenda.mem_scheduleAll.mp hy with ⟨r, -, rfl⟩ | hy
    · exact Nat.le_add_right now r.1
    · exact hahead y (hold.subset hy)

theorem reached_writing (hx : x.Fair) {d : Departure} (h : x.Stage now w (.writing sweep d))
    (hord : w.connection.agenda.Ordered) (hahead : ∀ y ∈ w.connection.agenda, now ≤ y.1) :
    x.Reached now (w.written sweep d) := by
  obtain ⟨hstate, k, n, hsender, hprogress, rfl, hcalm, hawaits, hthere⟩ := h
  obtain ⟨w', hset, hcalm', -, hagenda⟩ := hcalm.setTtl hx sweep.sender.defaultTtl
  simp only [World.written, Sender.land, Sender.restore, Bool.false_eq_true, if_false, hset]
  rw [World.await_of_probing hstate]
  rw [← hagenda] at hord hahead hawaits hthere
  refine ⟨hcalm'.now, ⟨rfl, Nat.le_add_right now x.timeout, k, n, now, hsender, ?_, rfl, hawaits,
    .inl ⟨hcalm', hthere⟩⟩, hord, hahead⟩
  exact ⟨hprogress.target, hprogress.maxHops, hprogress.done, hprogress.walked⟩

variable {ttl : UInt8} {sentAt : Instant}

theorem Awaits.stray {agenda : Agenda} (h : x.Awaits k (x.flight sentAt (k + 1) ttl n) agenda) :
    ∀ y ∈ agenda, x.Stray (k + 1) y.2 := by
  intro y hy
  rcases h y hy with hstray | ⟨r, hr, rfl⟩
  · exact hstray.mono (Nat.le_succ k)
  · obtain ⟨r', hr', rfl⟩ := List.mem_map.mp hr
    exact .inr (late_reaction hr' (Nat.succ_pos k) ttl)

theorem Awaits.suffix {f : Flight} {agenda agenda' : Agenda} (h : x.Awaits k f agenda)
    (hs : agenda' <:+ agenda) : x.Awaits k f agenda' :=
  fun y hy => h y (hs.subset hy)

theorem hop_of_late (hidle : ∀ r ∈ x.reactions (x.flight sentAt (k + 1) ttl n), now < sentAt + r.1)
    (hlate : sentAt + x.timeout ≤ now) : x.hop ttl = .timedOut ttl := by
  have hanswer := x.answer sentAt (k + 1) ttl n
  generalize x.reactions (x.flight sentAt (k + 1) ttl n) = reactions at hidle hanswer
  generalize x.hop ttl = hop at hanswer
  cases hanswer with
  | silent => rfl
  | @routed data router kind delay left hparse =>
      have hdelay : now < sentAt + delay := hidle _ (List.mem_singleton_self _)
      have hlong : x.timeout < delay :=
        Nat.lt_of_add_lt_add_left (Nat.lt_of_le_of_lt hlate hdelay)
      rw [if_neg (Nat.not_lt_of_gt hlong)]
      rfl
  | @echoed delay =>
      have hdelay : now < sentAt + delay := hidle _ (List.mem_singleton_self _)
      have hlong : x.timeout < delay :=
        Nat.lt_of_add_lt_add_left (Nat.lt_of_le_of_lt hlate hdelay)
      rw [if_neg (Nat.not_le_of_lt hlong)]
      rfl

theorem calm_forget {entries : List Entry} {m : Mailbox} {token : Token}
    (h : w.Calm x now k fun r => r.Watched x.flow x.opened n entries m)
    (hall : ∀ e ∈ entries, e.token = token) :
    (w.forget token n).Calm x now k fun r => r.Clear x.flow x.opened :=
  h.withRegistry (h.registry.forgotten hall)

theorem receive_of_waits (h : w.Calm x now k (x.Waits (x.flight sentAt (k + 1) ttl n))) :
    w.receive n = (.empty, w) := by
  have hbox : w.engine.registry.mailbox? n = some .waiting := h.registry.box
  simp only [World.receive, Registry.receive, hbox]
  rfl

structure Waiting (x : Crossing) (now sentAt : Instant) (sweep : Sweep) (k n : Nat) (w : World) :
    Prop where
  state : sweep.session.state = .awaitingResponse sweep.ttl
  sender : sweep.sender = x.sender (k + 1)
  progress : x.Progress sweep k
  early : now ≤ sentAt + x.timeout
  awaits : x.Awaits k (x.flight sentAt (k + 1) sweep.ttl n) w.connection.agenda
  ordered : w.connection.agenda.Ordered
  ahead : ∀ y ∈ w.connection.agenda, now ≤ y.1

namespace Waiting

theorem conclude (h : x.Waiting now sentAt sweep k n w) {w' : World} {entries : List Entry}
    {m : Mailbox}
    (hcalm : w'.Calm x now (k + 1) fun r => r.Watched x.flow x.opened n entries m)
    (hall : ∀ e ∈ entries, e.token = x.token (k + 1))
    (hagenda : w'.connection.agenda <:+ w.connection.agenda) :
    x.Reached now ((w'.forget (x.token (k + 1)) n).conclude sweep (x.hop sweep.ttl)) :=
  reached_conclude h.progress h.sender h.state (calm_forget hcalm hall)
    (fun y hy => h.awaits.stray y (hagenda.subset hy)) (h.ordered.suffix hagenda)
    fun y hy => h.ahead y (hagenda.subset hy)

theorem await (h : x.Waiting now sentAt sweep k n w) {w' : World}
    (htime : w'.now = now) (hagenda : w'.connection.agenda <:+ w.connection.agenda)
    (hcalm : w'.Calm x now k (x.Waits (x.flight sentAt (k + 1) sweep.ttl n)) ∧
        (∀ r ∈ x.reactions (x.flight sentAt (k + 1) sweep.ttl n),
          (sentAt + r.1, r.2) ∈ w'.connection.agenda) ∨
      w'.Calm x now k (x.Holds (x.flight sentAt (k + 1) sweep.ttl n) (x.hop sweep.ttl))) :
    x.Reached now (.awaiting sweep (x.flight sentAt (k + 1) sweep.ttl n), w') :=
  ⟨htime,
    ⟨h.state, h.early, k, n, sentAt, h.sender, h.progress, rfl, h.awaits.suffix hagenda, hcalm⟩,
    h.ordered.suffix hagenda, fun y hy => h.ahead y (hagenda.subset hy)⟩

theorem owner {sentAt : Instant} : ∀ e ∈ [x.entry sentAt (k + 1) sweep.ttl n],
    e.token = x.token (k + 1) := by
  intro e he
  rw [List.mem_singleton.mp he]
  rfl

theorem reached_holding (h : x.Waiting now sentAt sweep k n w)
    (hcalm : w.Calm x now k (x.Holds (x.flight sentAt (k + 1) sweep.ttl n) (x.hop sweep.ttl))) :
    x.Reached now (w.look sweep (x.flight sentAt (k + 1) sweep.ttl n)) := by
  obtain ⟨hreceive, htaken⟩ := hcalm.registry.received
  have hreceived : w.receive (x.flight sentAt (k + 1) sweep.ttl n).mailbox =
      (.hop (x.hop sweep.ttl), w.withRegistry (w.engine.registry.receive n).2) := by
    unfold World.receive
    rw [hreceive]
    rfl
  simp only [World.look, hreceived]
  exact h.conclude ((hcalm.withRegistry htaken).mono (Nat.le_succ k)) (by simp)
    (List.suffix_refl _)

variable (hx : x.Fair) (h : x.Waiting now sentAt sweep k n w)

include hx h

theorem reached_idle (hcalm : w.Calm x now k (x.Waits (x.flight sentAt (k + 1) sweep.ttl n)))
    (hthere : ∀ r ∈ x.reactions (x.flight sentAt (k + 1) sweep.ttl n),
      (sentAt + r.1, r.2) ∈ w.connection.agenda)
    (hidle : ∀ r ∈ x.reactions (x.flight sentAt (k + 1) sweep.ttl n), now < sentAt + r.1) :
    x.Reached now (w.look sweep (x.flight sentAt (k + 1) sweep.ttl n)) := by
  have hmax := h.progress.lt hx
  have hstray : ∀ y ∈ w.connection.agenda, y.1 ≤ now → x.Stray k y.2 := by
    intro y hy hdue
    rcases h.awaits y hy with hstray | ⟨r, hr, rfl⟩
    · exact hstray
    · exact absurd hdue (Nat.not_le_of_lt (hidle r hr))
  have hstable := x.stable_waits sentAt (Nat.lt_succ_self k) hmax sweep.ttl n
  have hcaught := hcalm.catchUp hstable (Nat.le_refl k) hstray
  obtain ⟨w', hlisten, hquiet⟩ := hcaught.listen_nothing hmax sentAt sweep.ttl n
  have hsuffix := World.suffix_of_listen hlisten
  have hempty : w.receive (x.flight sentAt (k + 1) sweep.ttl n).mailbox = (.empty, w) :=
    receive_of_waits hcalm
  simp only [World.look, hempty, hlisten]
  split
  · rename_i hlate
    rw [hquiet.now] at hlate
    have hhop := hop_of_late hidle hlate
    have hreached := h.conclude (hquiet.mono (Nat.le_succ k)) owner hsuffix
    rw [hhop] at hreached
    exact hreached
  · refine h.await hquiet.now hsuffix (.inl ⟨hquiet, ?_⟩)
    intro r hr
    have hagenda := w.agenda_listen (x.flight sentAt (k + 1) sweep.ttl n)
    rw [hlisten, hcalm.now] at hagenda
    rw [hagenda]
    exact Agenda.mem_dropWhile_of_lt (hthere r hr) (hidle r hr)

theorem reached_routed (hcalm : w.Calm x now k (x.Waits (x.flight sentAt (k + 1) sweep.ttl n)))
    {data : Packet.Bytes} {router : Net.Ip} {kind : ReplyKind} {delay : Span} {left : UInt8}
    (hparse : Packet.Reply.ofDatagram data router = .ok ⟨router, kind, x.token (k + 1), left⟩)
    (hall : ∀ y ∈ w.connection.agenda, x.Stray k y.2 ∨ y = (sentAt + delay, .packet data router))
    (hin : (sentAt + delay, Event.packet data router) ∈ w.connection.agenda)
    (hdue : sentAt + delay ≤ now)
    (hhop : x.hop sweep.ttl = if delay < x.timeout then .resolved sweep.ttl router delay kind
      else .timedOut sweep.ttl) :
    x.Reached now (w.look sweep (x.flight sentAt (k + 1) sweep.ttl n)) := by
  have hmax := h.progress.lt hx
  have hnow : now = sentAt + delay := Nat.le_antisymm (h.ahead _ hin) hdue
  have hempty : w.receive (x.flight sentAt (k + 1) sweep.ttl n).mailbox = (.empty, w) :=
    receive_of_waits hcalm
  obtain ⟨w', hlisten, hheld⟩ := hcalm.listen_routed h.ordered hmax hparse hall hin hdue
  have hsuffix := World.suffix_of_listen hlisten
  simp only [World.look, hempty, hlisten]
  split
  · rename_i hlate
    rw [hheld.now, hnow] at hlate
    have hslow : x.timeout ≤ delay := Nat.le_of_add_le_add_left hlate
    rw [if_neg (Nat.not_lt_of_le hslow)] at hhop
    have hreached := h.conclude (hheld.mono (Nat.le_succ k)) (by simp) hsuffix
    rw [hhop] at hreached
    exact hreached
  · rename_i hearly
    rw [hheld.now, hnow] at hearly
    have hfast : delay < x.timeout :=
      Nat.lt_of_add_lt_add_left (Nat.lt_of_not_le hearly)
    rw [if_pos hfast] at hhop
    rw [← hhop] at hheld
    exact h.await hheld.now hsuffix (.inr hheld)

theorem reached_echoed (hcalm : w.Calm x now k (x.Waits (x.flight sentAt (k + 1) sweep.ttl n)))
    {delay : Span}
    (hall : ∀ y ∈ w.connection.agenda, x.Stray k y.2 ∨
      y = (sentAt + delay, .pong (Payload.bytes (k + 1).toUInt16 sweep.ttl)))
    (hin : (sentAt + delay, Event.pong (Payload.bytes (k + 1).toUInt16 sweep.ttl)) ∈
      w.connection.agenda)
    (hdue : sentAt + delay ≤ now)
    (hhop : x.hop sweep.ttl = if delay ≤ x.timeout then
      .resolved sweep.ttl x.target delay .destination else .timedOut sweep.ttl) :
    x.Reached now (w.look sweep (x.flight sentAt (k + 1) sweep.ttl n)) := by
  have hmax := h.progress.lt hx
  have hnow : now = sentAt + delay := Nat.le_antisymm (h.ahead _ hin) hdue
  have hempty : w.receive (x.flight sentAt (k + 1) sweep.ttl n).mailbox = (.empty, w) :=
    receive_of_waits hcalm
  obtain ⟨w', hlisten, hheard⟩ := hcalm.listen_echoed hx h.ordered hmax hall hin hdue
  have hsuffix := World.suffix_of_listen hlisten
  have hearly := h.early
  rw [hnow] at hearly
  have hfast : delay ≤ x.timeout := Nat.le_of_add_le_add_left hearly
  have hrtt : w'.now - sentAt = delay := by
    rw [hheard.now, hnow]
    exact Nat.add_sub_cancel_left sentAt delay
  rw [if_pos hfast] at hhop
  have hreached := h.conclude hheard owner hsuffix
  rw [hhop, ← hrtt, ← h.progress.target] at hreached
  simp only [World.look, hempty, hlisten]
  exact hreached

theorem reached_look (hcalm : w.Calm x now k (x.Waits (x.flight sentAt (k + 1) sweep.ttl n)))
    (hthere : ∀ r ∈ x.reactions (x.flight sentAt (k + 1) sweep.ttl n),
      (sentAt + r.1, r.2) ∈ w.connection.agenda) :
    x.Reached now (w.look sweep (x.flight sentAt (k + 1) sweep.ttl n)) := by
  by_cases hidle : ∀ r ∈ x.reactions (x.flight sentAt (k + 1) sweep.ttl n), now < sentAt + r.1
  · exact h.reached_idle hx hcalm hthere hidle
  have hanswer := x.answer sentAt (k + 1) sweep.ttl n
  have hawaits := h.awaits
  unfold Awaits at hawaits
  generalize x.reactions (x.flight sentAt (k + 1) sweep.ttl n) = reactions at *
  generalize hhop : x.hop sweep.ttl = hop at hanswer
  have hone : ∀ {r : Span × Event}, reactions = [r] → (∀ y ∈ w.connection.agenda,
      x.Stray k y.2 ∨ y = (sentAt + r.1, r.2)) ∧ (sentAt + r.1, r.2) ∈ w.connection.agenda ∧
        sentAt + r.1 ≤ now := by
    rintro r rfl
    refine ⟨?_, hthere r (List.mem_singleton_self r), ?_⟩
    · intro y hy
      rcases hawaits y hy with hstray | ⟨r', hr', rfl⟩
      · exact .inl hstray
      · rw [List.mem_singleton.mp hr']
        exact .inr rfl
    · simpa using hidle
  cases hanswer with
  | silent => exact absurd (by simp) hidle
  | routed hparse =>
      obtain ⟨hall, hin, hdue⟩ := hone rfl
      exact h.reached_routed hx hcalm hparse hall hin hdue hhop
  | echoed =>
      obtain ⟨hall, hin, hdue⟩ := hone rfl
      exact h.reached_echoed hx hcalm hall hin hdue hhop

end Waiting

theorem reached_awaiting (hx : x.Fair) {f : Flight} (h : x.Stage now w (.awaiting sweep f))
    (hord : w.connection.agenda.Ordered) (hahead : ∀ y ∈ w.connection.agenda, now ≤ y.1) :
    x.Reached now (w.look sweep f) := by
  obtain ⟨hstate, hearly, k, n, sentAt, hsender, hprogress, rfl, hawaits, hcalm⟩ := h
  have hwaiting : x.Waiting now sentAt sweep k n w :=
    ⟨hstate, hsender, hprogress, hearly, hawaits, hord, hahead⟩
  rcases hcalm with ⟨hcalm, hthere⟩ | hcalm
  · exact hwaiting.reached_look hx hcalm hthere
  · exact hwaiting.reached_holding hcalm

structure Underway (x : Crossing) (independent : Bool) (now : Instant) (e : Engine) (t : Trace) :
    Prop where
  independent : t.independent = independent
  stage : x.Stage now (t.world now e) t.phase
  ordered : t.connection.agenda.Ordered
  ahead : ∀ y ∈ t.connection.agenda, now ≤ y.1

namespace Underway

variable {independent : Bool} {e : Engine} {t : Trace}

theorem not_isCancelled (h : x.Underway independent now e t)
    (hlive : (if independent then x.cancelled else x.engine.stopped) = false) {m : Nat}
    {V : Registry → Prop} (hcalm : (t.world now e).Calm x now m V) : t.isCancelled e = false := by
  have hcancelled : t.connection.cancelled = x.cancelled := hcalm.cancelled
  have hengine : e = { x.engine with registry := e.registry } := hcalm.engine
  have hstopped : e.stopped = x.engine.stopped := by rw [hengine]
  rw [Trace.isCancelled, h.independent, hcancelled, hstopped]
  exact hlive

theorem turn (hx : x.Fair) (h : x.Underway independent now e t)
    (hlive : (if independent then x.cancelled else x.engine.stopped) = false)
    (hready : t.ready now e) : x.Reached now (t.turn now e) := by
  have hstage := h.stage
  unfold Trace.turn
  cases hphase : t.phase with
  | opening =>
      rw [hphase] at hstage
      exact reached_opening hx hstage h.ordered h.ahead t.id
  | settling sweep giveUp wake =>
      rw [hphase] at hstage
      obtain ⟨-, -, k, -, -, hcalm, -⟩ := id hstage
      simp only [h.not_isCancelled hlive hcalm, Bool.false_eq_true, if_false]
      exact reached_settling hx hstage h.ordered h.ahead
  | writing sweep d =>
      rw [hphase] at hstage
      exact reached_writing hx hstage h.ordered h.ahead
  | awaiting sweep f =>
      rw [hphase] at hstage
      have hcancel : t.isCancelled e = false := by
        obtain ⟨-, -, k, n, sentAt, -, -, -, -, ⟨hcalm, -⟩ | hcalm⟩ := id hstage
        · exact h.not_isCancelled hlive hcalm
        · exact h.not_isCancelled hlive hcalm
      simp only [hcancel, Bool.false_eq_true, if_false]
      exact reached_awaiting hx hstage h.ordered h.ahead
  | finished outcome at_ => simp [Trace.ready, hphase] at hready

theorem step (hx : x.Fair) (h : x.Underway independent now e t)
    (hlive : (if independent then x.cancelled else x.engine.stopped) = false)
    (hready : t.ready now e) :
    x.Underway independent now (t.step now e).2 (t.step now e).1 := by
  obtain ⟨htime, hstage, hord, hahead⟩ := h.turn hx hlive hready
  refine ⟨h.independent, ?_, hord, hahead⟩
  have hworld : (t.step now e).1.world now (t.step now e).2 = (t.turn now e).2 := by
    rw [Trace.world_step]
    exact World.mk_of_now htime
  rw [hworld]
  exact hstage

theorem later {m : Nat} {V : Registry → Prop} {t : Trace} {e : Engine}
    (hcalm : (t.world now e).Calm x now m V) (now' : Instant) :
    (t.world now' e).Calm x now' m V :=
  ⟨rfl, hcalm.engine, hcalm.registry, hcalm.behaviour, hcalm.counters, hcalm.fault,
    hcalm.cancelled, hcalm.inbox⟩

theorem wait (h : x.Underway independent now e t) (hready : t.ready now e = false) {m : Instant}
    (hwake : t.wake? = some m) : x.Underway independent (max now m) e t := by
  have hstage := h.stage
  cases hphase : t.phase with
  | opening => simp [Trace.ready, hphase] at hready
  | settling sweep giveUp wake =>
      rw [hphase] at hstage
      simp [Trace.ready, hphase, hstage.1] at hready
  | writing sweep d =>
      rw [hphase] at hstage
      obtain ⟨-, k, n, -, -, rfl, -⟩ := hstage
      simp [Trace.ready, hphase] at hready
  | finished outcome at_ => simp [Trace.wake?, hphase] at hwake
  | awaiting sweep f =>
      simp only [Trace.wake?, hphase, Option.some.injEq] at hwake
      obtain ⟨hdeadline, hdue⟩ := Agenda.foldl_min_le t.connection.agenda f.deadline
      rw [hwake] at hdeadline hdue
      rw [hphase] at hstage
      obtain ⟨hstate, hearly, k, n, sentAt, hsender, hprogress, hflight, hawaits, hcalm⟩ := hstage
      refine ⟨h.independent, ?_, h.ordered, fun y hy => Nat.max_le.mpr ⟨h.ahead y hy, hdue y hy⟩⟩
      rw [hphase]
      refine ⟨hstate, Nat.max_le.mpr ⟨hearly, hdeadline⟩, k, n, sentAt, hsender, hprogress, hflight,
        hawaits, ?_⟩
      rcases hcalm with ⟨hcalm, hthere⟩ | hcalm
      · exact .inl ⟨later hcalm _, hthere⟩
      · exact .inr (later hcalm _)

theorem run (hx : x.Fair) (hlive : (if independent then x.cancelled else x.engine.stopped) = false)
    {f : Fleet} (h : f.Alone (x.Underway independent)) : f.run.Alone (x.Underway independent) :=
  h.reaches (fun _ _ _ hp hready => hp.step hx hlive hready)
    (fun _ _ _ _ hp hready hwake => hp.wait hready hwake) (Fleet.reaches_run f)

end Underway

end Crossing

end InbandTrace
