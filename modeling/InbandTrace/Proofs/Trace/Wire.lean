import InbandTrace.Proofs.Trace.Course
import InbandTrace.Proofs.Trace.Termination

namespace InbandTrace

namespace Behaviour

def tuned (b : Behaviour) (values : List Nat) : Nat :=
  values.zipIdx.foldl (fun ttl x => if (b.setTtl x.2 x.1).isNone then x.1 else ttl) b.ttl

def tunings (b : Behaviour) (tried : List UInt8) : List Nat :=
  tried.flatMap fun ttl => [ttl.toNat, b.ttl]

/-- The TTL could be put back after each of so many probes. -/
def Restores (b : Behaviour) (count : Nat) : Prop :=
  ∀ i < count, b.setTtl (2 * i + 1) b.ttl = none

variable (b : Behaviour)

theorem tuned_concat (values : List Nat) (v : Nat) : b.tuned (values ++ [v]) =
    if (b.setTtl values.length v).isNone then v else b.tuned values := by
  simp [tuned, List.zipIdx_append]

theorem tunings_concat (tried : List UInt8) (ttl : UInt8) :
    b.tunings (tried ++ [ttl]) = b.tunings tried ++ [ttl.toNat] ++ [b.ttl] := by
  simp [tunings]

theorem length_tunings (tried : List UInt8) : (b.tunings tried).length = 2 * tried.length := by
  induction tried with
  | nil => rfl
  | cons ttl rest ih =>
      simp only [tunings, List.flatMap_cons, List.length_append, List.length_cons] at ih ⊢
      rw [ih]
      simp only [List.length_nil]
      omega

theorem tuned_tunings {tried : List UInt8} (h : b.Restores tried.length) :
    b.tuned (b.tunings tried) = b.ttl := by
  rcases List.eq_nil_or_concat tried with rfl | ⟨before, ttl, rfl⟩
  · rfl
  · have hlast := h before.length (by simp)
    rw [List.concat_eq_append, tunings_concat, tuned_concat, List.length_append, length_tunings]
    simp [hlast]

theorem restores_zero : b.Restores 0 := by
  intro i hi
  cases hi

theorem restores_succ {count : Nat} (h : b.Restores count)
    (hlast : b.setTtl (2 * count + 1) b.ttl = none) : b.Restores (count + 1) := by
  intro i hi
  rcases Nat.lt_succ_iff_lt_or_eq.mp hi with hi | rfl
  · exact h i hi
  · exact hlast

end Behaviour

namespace Connection

structure Tuned (b : Behaviour) (values : List Nat) (c : Connection) : Prop where
  behaviour : c.behaviour = b
  calls : c.ttlCalls = values.length
  ttl : c.ttl = b.tuned values

theorem Tuned.setTtl {b : Behaviour} {values : List Nat} {c : Connection} (h : c.Tuned b values)
    (v : Nat) :
    (c.setTtl v).1 = b.setTtl values.length v ∧ (c.setTtl v).2.Tuned b (values ++ [v]) := by
  have hcall : c.behaviour.setTtl c.ttlCalls v = b.setTtl values.length v := by
    rw [h.behaviour, h.calls]
  unfold Connection.setTtl
  cases hset : b.setTtl values.length v with
  | some fault =>
      rw [hcall, hset]
      refine ⟨rfl, h.behaviour, ?_, ?_⟩
      · rw [List.length_append, h.calls]
        rfl
      · rw [b.tuned_concat, hset]
        exact h.ttl
  | none =>
      rw [hcall, hset]
      refine ⟨rfl, h.behaviour, ?_, ?_⟩
      · rw [List.length_append, h.calls]
        rfl
      · rw [b.tuned_concat, hset]
        rfl

def Covers (c : Connection) (hops : List Hop) : Prop :=
  ∀ hop ∈ hops, (∃ p ∈ c.pings, p.ttl = hop.ttl.toNat) ∨ hop = .timedOut hop.ttl

theorem Covers.mono {c c' : Connection} {hops : List Hop} (h : c.Covers hops)
    (hp : ∀ p ∈ c.pings, p ∈ c'.pings) : c'.Covers hops := by
  intro hop hmem
  rcases h hop hmem with ⟨p, hin, hsame⟩ | hlost
  · exact .inl ⟨p, hp p hin, hsame⟩
  · exact .inr hlost

end Connection

namespace Phase

def hops : Phase → List Hop
  | .opening => []
  | .settling sweep _ _ | .writing sweep _ | .awaiting sweep _ => sweep.session.hops
  | .finished (.ok r) _ => r.hops
  | .finished (.error e) _ => (e.partial?.map TraceResult.hops).getD []

def tunings (b : Behaviour) (tried : List UInt8) : Phase → List Nat
  | .writing sweep _ => b.tunings tried ++ [sweep.ttl.toNat]
  | _ => b.tunings tried

/-- Where the sweep stands. A TTL is tried when the socket is told to use it. -/
def Wired (b : Behaviour) (tried : List UInt8) (c : Connection) : Phase → Prop
  | .opening => tried = [] ∧ c.pings = []
  | .settling sweep _ _ =>
      sweep.sender.defaultTtl = b.ttl ∧ b.Restores tried.length ∧
        c.pings.map Ping.ttl = (tried.map UInt8.toNat).reverse ∧ ∀ ttl ∈ tried, ttl < sweep.ttl
  | .writing sweep d =>
      sweep.sender.defaultTtl = b.ttl ∧ b.Restores tried.length ∧
        (∀ ttl ∈ tried, ttl < sweep.ttl) ∧ c.ttl = sweep.ttl.toNat ∧
        ∃ earlier, c.pings = ⟨d.flight.sentAt, sweep.ttl.toNat, d.flight.payload⟩ :: earlier ∧
          earlier.map Ping.ttl = (tried.map UInt8.toNat).reverse
  | .awaiting sweep _ =>
      sweep.sender.defaultTtl = b.ttl ∧ b.Restores tried.length ∧
        c.pings.map Ping.ttl = (tried.map UInt8.toNat).reverse ∧
        (∀ ttl ∈ tried, ttl ≤ sweep.ttl) ∧ sweep.ttl ∈ tried
  | .finished outcome _ =>
      (c.pings.map Ping.ttl).Sublist (tried.map UInt8.toNat).reverse ∧
        b.Restores (tried.length - 1) ∧
        (b.Restores tried.length ∨ ∃ r, outcome = .error (.connectionClosed r))

end Phase

namespace World

/-- Nothing is written, or a probe begins to be written while the socket uses the TTL that is
probed. -/
def Writes (before after : Turn) : Prop :=
  after.2.connection.pings = before.2.connection.pings ∨
    ∃ sweep giveUp wake next d, before.1 = .settling sweep giveUp wake ∧
      after.1 = .writing next d ∧ next.ttl = sweep.ttl ∧
      after.2.connection.ttl = sweep.ttl.toNat ∧
      after.2.connection.pings =
        ⟨before.2.now, sweep.ttl.toNat, d.flight.payload⟩ :: before.2.connection.pings

/-- Nothing is recorded, or the hop of the probe that is awaited, or a timeout where no token was
free for a probe. -/
def Records (before after : Turn) : Prop :=
  after.1.hops = before.1.hops ∨
    ∃ hop, after.1.hops = before.1.hops ++ [hop] ∧
      ((∃ sweep flight, before.1 = .awaiting sweep flight ∧ hop.ttl = sweep.ttl) ∨
        ∃ sweep giveUp wake, before.1 = .settling sweep giveUp wake ∧
          hop = .timedOut sweep.ttl ∧ ∀ i < Sender.attempts,
            after.2.engine.registry.contains (Sender.next^[i + 1] sweep.sender).token)

end World

structure World.Wired (b : Behaviour) (tried : List UInt8) (turn : Turn) : Prop where
  tuned : turn.2.connection.Tuned b (turn.1.tunings b tried)
  rising : tried.Pairwise fun x y => x < y
  stage : turn.1.Wired b tried turn.2.connection
  covered : turn.2.connection.Covers turn.1.hops

namespace World

@[simp]
theorem hops_proceed (w : World) (sweep : Sweep) (hop : Hop) :
    (w.proceed sweep hop).1.hops = sweep.session.hops ++ [hop] := by
  unfold proceed
  split <;> rfl

theorem Lapse.tuned {es : Agenda} {w w' : World} (hw : Lapse es w w') {b : Behaviour}
    {values : List Nat} (h : w.connection.Tuned b values) : w'.connection.Tuned b values :=
  ⟨hw.behaviour.trans h.behaviour, hw.ttlCalls.trans h.calls, hw.ttl.trans h.ttl⟩

variable {b : Behaviour} {tried : List UInt8}

theorem wired_proceed {w : World} {sweep : Sweep} {hop : Hop}
    (ht : w.connection.Tuned b (b.tunings tried)) (hrise : tried.Pairwise fun x y => x < y)
    (hdefault : sweep.sender.defaultTtl = b.ttl) (hrest : b.Restores tried.length)
    (hpings : w.connection.pings.map Ping.ttl = (tried.map UInt8.toNat).reverse)
    (hbelow : ∀ ttl ∈ tried, ttl ≤ sweep.ttl) (httl : hop.ttl = sweep.ttl)
    (hcover : w.connection.Covers (sweep.session.hops ++ [hop])) :
    Wired b tried (w.proceed sweep hop) := by
  have hcovered : (w.proceed sweep hop).2.connection.Covers (w.proceed sweep hop).1.hops := by
    rw [hops_proceed, connection_proceed]
    exact hcover
  unfold proceed at hcovered ⊢
  split
  · rename_i hends
    rw [if_pos hends] at hcovered
    refine ⟨ht, hrise, ⟨?_, fun i hi => hrest i (by omega), .inl hrest⟩, hcovered⟩
    rw [← hpings]
    exact List.Sublist.refl _
  · rename_i hgoes
    rw [if_neg hgoes] at hcovered
    refine ⟨ht, hrise, ⟨hdefault, hrest, hpings, ?_⟩, hcovered⟩
    intro ttl hmem
    have hle := UInt8.le_iff_toNat_le.mp (hbelow ttl hmem)
    have hnext := Session.toNat_next_of_not_endsWith hgoes
    refine UInt8.lt_iff_toNat_lt.mpr ?_
    change ttl.toNat < (hop.ttl + 1).toNat
    rw [hnext, httl]
    exact Nat.lt_succ_of_le hle

theorem wired_breakOff {w : World} {sweep : Sweep} {abort : Abort}
    (ha : abort = .closed ∨ abort = .cancelled)
    (ht : w.connection.Tuned b (b.tunings tried)) (hrise : tried.Pairwise fun x y => x < y)
    (hpings : (w.connection.pings.map Ping.ttl).Sublist (tried.map UInt8.toNat).reverse)
    (hrest : b.Restores (tried.length - 1))
    (hend : b.Restores tried.length ∨ abort = .closed)
    (hcover : w.connection.Covers sweep.session.hops) :
    Wired b tried (w.breakOff sweep abort) := by
  refine ⟨ht, hrise, ⟨hpings, hrest, hend.imp_right ?_⟩, ?_⟩
  · rintro rfl
    exact ⟨_, rfl⟩
  · rcases ha with rfl | rfl
    · exact hcover
    · exact hcover

theorem Lapse.covers {es : Agenda} {w w' : World} (hw : Lapse es w w') {hops : List Hop}
    (h : w.connection.Covers hops) : w'.connection.Covers hops := by
  refine h.mono fun p hp => ?_
  rw [hw.pings]
  exact hp

theorem covers_concat {c : Connection} {hops : List Hop} {hop : Hop} (h : c.Covers hops)
    (hlast : (∃ p ∈ c.pings, p.ttl = hop.ttl.toNat) ∨ hop = .timedOut hop.ttl) :
    c.Covers (hops ++ [hop]) := by
  intro x hx
  rcases List.mem_append.mp hx with hx | hx
  · exact h x hx
  · rw [List.mem_singleton.mp hx]
    exact hlast

theorem rising_concat {ttl : UInt8} (h : tried.Pairwise fun x y => x < y)
    (hbelow : ∀ x ∈ tried, x < ttl) : (tried ++ [ttl]).Pairwise fun x y => x < y := by
  refine List.pairwise_append.mpr ⟨h, List.pairwise_singleton _ _, ?_⟩
  intro x hx y hy
  rw [List.mem_singleton.mp hy]
  exact hbelow x hx

theorem wired_failed {w w' : World} {sweep : Sweep}
    (ht : w.connection.Tuned b (b.tunings tried ++ [sweep.ttl.toNat]))
    (hrise : tried.Pairwise fun x y => x < y) (hbelow : ∀ ttl ∈ tried, ttl < sweep.ttl)
    (hrest : b.Restores tried.length)
    (hpings : (w.connection.pings.map Ping.ttl).Sublist
      ((tried ++ [sweep.ttl]).map UInt8.toNat).reverse)
    (hcover : w.connection.Covers sweep.session.hops)
    (hsame : w'.connection = (w.connection.setTtl b.ttl).2) :
    Wired b (tried ++ [sweep.ttl]) (w'.breakOff sweep .closed) := by
  obtain ⟨-, htuned⟩ := ht.setTtl b.ttl
  refine wired_breakOff (.inl rfl) ?_ (rising_concat hrise hbelow) ?_ ?_ (.inr rfl) ?_
  · rw [hsame, b.tunings_concat]
    exact htuned
  · rw [hsame, Connection.pings_setTtl]
    exact hpings
  · rw [List.length_append]
    exact hrest
  · rw [hsame]
    exact hcover.mono fun p hp => (w.connection.pings_setTtl b.ttl).symm ▸ hp

section Opening

variable {w w' : World} {es : Agenda}

theorem wired_begun (h : Wired b tried (.opening, w)) (hw : Lapse es w w') {sender : Sender}
    (hs : sender.Fresh w) (id : String) :
    Wired b [] (w'.settling (begun (w'.sessionTo id sender.flow.dst.ip) sender)) := by
  obtain ⟨ht, hrise, ⟨rfl, hnone⟩, -⟩ := h
  have hdefault : sender.defaultTtl = b.ttl := hs.defaultTtl.trans ht.ttl
  refine ⟨hw.tuned ht, hrise, ⟨hdefault, b.restores_zero, ?_, by simp⟩, ?_⟩
  · change w'.connection.pings.map Ping.ttl = []
    rw [hw.pings, hnone]
    rfl
  · intro hop hmem
    cases hmem

theorem wired_refused (h : Wired b tried (.opening, w)) (hw : Lapse es w w') (id : String)
    (target : Net.Ip) {abort : Abort}
    (ha : abort = .closed ∨ ∃ reason, abort = .failed (.config reason)) :
    Wired b [] (w'.finish { w'.sessionTo id target with state := .aborted } (some abort)) := by
  obtain ⟨ht, hrise, ⟨rfl, hnone⟩, -⟩ := h
  refine ⟨hw.tuned ht, hrise, ⟨?_, b.restores_zero, .inl b.restores_zero⟩, ?_⟩
  · change (w'.connection.pings.map Ping.ttl).Sublist []
    rw [hw.pings, hnone]
    exact List.Sublist.refl _
  · rcases ha with rfl | ⟨reason, rfl⟩
    · intro hop hmem
      cases hmem
    · intro hop hmem
      cases hmem

end Opening

section Settling

variable {w w' w'' : World} {es es' : Agenda} {sweep : Sweep} {giveUp wake : Instant} {s : Sender}
  {m : Nat} {r : Registry}

theorem wired_cancelled (h : Wired b tried (.settling sweep giveUp wake, w)) :
    Wired b tried (w.breakOff sweep .cancelled) := by
  obtain ⟨ht, hrise, ⟨hdefault, hrest, hpings, hbelow⟩, hcover⟩ := h
  refine wired_breakOff (.inr rfl) ht hrise ?_ (fun i hi => hrest i (by omega)) (.inl hrest) hcover
  rw [hpings]

theorem wired_paused (h : Wired b tried (.settling sweep giveUp wake, w)) (hw : Lapse es w w')
    (next : Instant) : Wired b tried (.settling sweep giveUp next, w') := by
  obtain ⟨ht, hrise, ⟨hdefault, hrest, hpings, hbelow⟩, hcover⟩ := h
  exact ⟨hw.tuned ht, hrise, ⟨hdefault, hrest, by rw [hw.pings, hpings], hbelow⟩, hw.covers hcover⟩

theorem wired_collided (h : Wired b tried (.settling sweep giveUp wake, w)) (hw : Lapse es w w')
    {token : Token} (hr : sweep.sender.reserve sweep.ttl w.now (Sender.attempts - 1)
      w'.engine.registry = (s, .error token)) :
    Wired b tried (w'.proceed { awaited sweep with sender := s } (.timedOut sweep.ttl)) := by
  obtain ⟨ht, hrise, ⟨hdefault, hrest, hpings, hbelow⟩, hcover⟩ := h
  have hsender : s.defaultTtl = b.ttl := by
    rw [Sender.sender_of_reserve hr]
    exact hdefault
  exact wired_proceed (hw.tuned ht) hrise hsender hrest (by rw [hw.pings, hpings])
    (fun ttl hmem => UInt8.le_of_lt (hbelow ttl hmem)) rfl
    (covers_concat (hw.covers hcover) (.inr rfl))

theorem wired_unsent (h : Wired b tried (.settling sweep giveUp wake, w)) (hw : Lapse es w w')
    (hr : sweep.sender.reserve sweep.ttl w.now (Sender.attempts - 1) w'.engine.registry =
      (s, .ok (m, r)))
    (hw' : Lapse es' ((w'.withRegistry r).setTtl sweep.ttl.toNat).2 w'') :
    Wired b (tried ++ [sweep.ttl]) ((s.abandon w'' m).breakOff sweep .closed) := by
  obtain ⟨ht, hrise, ⟨hdefault, hrest, hpings, hbelow⟩, hcover⟩ := h
  obtain ⟨hs, -⟩ := Sender.reserve_ok hr
  obtain ⟨-, htuned⟩ := (hw.tuned ht).setTtl sweep.ttl.toNat
  have hsame := hw.pings_lowered hw'
  refine wired_failed (hw'.tuned htuned) hrise hbelow hrest ?_
    (hcover.mono fun p hp => hsame ▸ hp) ?_
  · rw [hsame, hpings, List.map_append, List.reverse_append]
    exact List.sublist_append_right _ _
  · rw [show b.ttl = s.defaultTtl by rw [hs, ← hdefault]]
    rfl

theorem wired_launched (h : Wired b tried (.settling sweep giveUp wake, w)) (hw : Lapse es w w')
    (hr : sweep.sender.reserve sweep.ttl w.now (Sender.attempts - 1) w'.engine.registry =
      (s, .ok (m, r)))
    (hset : ((w'.withRegistry r).setTtl sweep.ttl.toNat).1 = none)
    (hw' : Lapse es' ((w'.withRegistry r).setTtl sweep.ttl.toNat).2 w'') {d : Departure}
    (hd : d.flight.sentAt = w.now) :
    Wired b tried (.writing { sweep with sender := s } d, w''.ping d.flight.payload) := by
  obtain ⟨ht, hrise, ⟨hdefault, hrest, hpings, hbelow⟩, hcover⟩ := h
  obtain ⟨hs, -⟩ := Sender.reserve_ok hr
  obtain ⟨-, htuned⟩ := (hw.tuned ht).setTtl sweep.ttl.toNat
  have hlow : w''.connection.ttl = sweep.ttl.toNat := hw'.ttl.trans (ttl_setTtl hset)
  have hping := hw.pings_ping hset hw' d.flight.payload
  have htuned' := hw'.tuned htuned
  refine ⟨⟨htuned'.behaviour, htuned'.calls, htuned'.ttl⟩, hrise,
    ⟨?_, hrest, hbelow, hlow, w.connection.pings, ?_, hpings⟩, ?_⟩
  · rw [hs]
    exact hdefault
  · rw [hping, hd]
  · refine hcover.mono fun p hp => ?_
    rw [hping]
    exact List.mem_cons_of_mem _ hp

end Settling

section Writing

variable {w w' : World} {es : Agenda} {sweep : Sweep} {d : Departure}

theorem wired_landed (h : Wired b tried (.writing sweep d, w)) (hw : Lapse es w w')
    (hset : (w'.setTtl sweep.sender.defaultTtl).1 = none) :
    Wired b (tried ++ [sweep.ttl])
      (.awaiting (awaited sweep) d.flight, (w'.setTtl sweep.sender.defaultTtl).2) := by
  obtain ⟨ht, hrise, ⟨hdefault, hrest, hbelow, hlow, earlier, hping, hearlier⟩, hcover⟩ := h
  rw [hdefault] at hset ⊢
  obtain ⟨hcall, htuned⟩ := (hw.tuned ht).setTtl b.ttl
  have hsame : (w'.connection.setTtl b.ttl).2.pings = w.connection.pings :=
    (Connection.pings_setTtl _ _).trans hw.pings
  have hlast : b.setTtl (2 * tried.length + 1) b.ttl = none := by
    rw [← hset]
    refine Eq.trans ?_ hcall.symm
    rw [Phase.tunings, List.length_append, b.length_tunings]
    rfl
  refine ⟨?_, rising_concat hrise hbelow, ⟨hdefault, ?_, ?_, ?_, ?_⟩, ?_⟩
  · change Connection.Tuned b (b.tunings (tried ++ [sweep.ttl])) _
    rw [b.tunings_concat]
    exact htuned
  · rw [List.length_append]
    exact b.restores_succ hrest hlast
  · change (w'.connection.setTtl b.ttl).2.pings.map Ping.ttl = _
    rw [hsame, hping, List.map_cons, hearlier, List.map_append, List.reverse_append]
    rfl
  · intro ttl hmem
    rcases List.mem_append.mp hmem with hmem | hmem
    · exact UInt8.le_of_lt (hbelow ttl hmem)
    · rw [List.mem_singleton.mp hmem]
      exact UInt8.le_refl _
  · exact List.mem_append_right _ (List.mem_singleton_self _)
  · exact hcover.mono fun p hp => hsame ▸ hp

theorem wired_crashed (h : Wired b tried (.writing sweep d, w)) (hw : Lapse es w w') :
    Wired b (tried ++ [sweep.ttl])
      (((w'.setTtl sweep.sender.defaultTtl).2.forget d.flight.token d.flight.mailbox).breakOff
        sweep .closed) := by
  obtain ⟨ht, hrise, ⟨hdefault, hrest, hbelow, hlow, earlier, hping, hearlier⟩, hcover⟩ := h
  refine wired_failed (hw.tuned ht) hrise hbelow hrest ?_ (hw.covers hcover) ?_
  · rw [hw.pings, hping, List.map_cons, hearlier, List.map_append, List.reverse_append]
    exact List.Sublist.refl _
  · rw [← hdefault]
    rfl

end Writing

section Awaiting

variable {w w' w₁ : World} {es : Agenda} {sweep : Sweep} {flight : Flight} {hop : Hop}
  {abort : Abort}

theorem wired_answered (h : Wired b tried (.awaiting sweep flight, w)) (hw : Lapse es w w')
    (hsame : w₁.connection = w'.connection) (httl : hop.ttl = sweep.ttl) :
    Wired b tried (w₁.proceed sweep hop) := by
  obtain ⟨ht, hrise, ⟨hdefault, hrest, hpings, hbelow, hcurrent⟩, hcover⟩ := h
  have hpings' : w₁.connection.pings = w.connection.pings := by
    rw [hsame]
    exact hw.pings
  have hprobed : ∃ p ∈ w.connection.pings, p.ttl = sweep.ttl.toNat := by
    have hmem : sweep.ttl.toNat ∈ w.connection.pings.map Ping.ttl := by
      rw [hpings, List.mem_reverse]
      exact List.mem_map_of_mem hcurrent
    exact List.mem_map.mp hmem
  refine wired_proceed (hsame ▸ hw.tuned ht) hrise hdefault hrest (by rw [hpings', hpings]) hbelow
    httl (covers_concat (hsame ▸ hw.covers hcover) (.inl ?_))
  rw [hpings', httl]
  exact hprobed

theorem wired_dropped (h : Wired b tried (.awaiting sweep flight, w)) (hw : Lapse es w w')
    (hsame : w₁.connection = w'.connection) (ha : abort = .closed ∨ abort = .cancelled) :
    Wired b tried (w₁.breakOff sweep abort) := by
  obtain ⟨ht, hrise, ⟨hdefault, hrest, hpings, hbelow, hcurrent⟩, hcover⟩ := h
  refine wired_breakOff ha (hsame ▸ hw.tuned ht) hrise ?_ (fun i hi => hrest i (by omega))
    (.inl hrest) (hsame ▸ hw.covers hcover)
  rw [hsame, hw.pings, hpings]

theorem wired_waited (h : Wired b tried (.awaiting sweep flight, w)) (hw : Lapse es w w') :
    Wired b tried (.awaiting sweep flight, w') := by
  obtain ⟨ht, hrise, ⟨hdefault, hrest, hpings, hbelow, hcurrent⟩, hcover⟩ := h
  exact ⟨hw.tuned ht, hrise, ⟨hdefault, hrest, by rw [hw.pings, hpings], hbelow, hcurrent⟩,
    hw.covers hcover⟩

end Awaiting

theorem Course.wired {w : World} {phase : Phase} {es : Agenda} {turn : Turn}
    (hc : Course w phase es turn) (h : Wired b tried (phase, w)) :
    ∃ tried', Wired b tried' turn := by
  cases hc with
  | opened hw hs hstart => exact ⟨[], wired_begun h hw hs _⟩
  | refused id target hw ha => exact ⟨[], wired_refused h hw id target ha⟩
  | cancelled => exact ⟨tried, wired_cancelled h⟩
  | paused hw htime => exact ⟨tried, wired_paused h hw _⟩
  | collided hw hr => exact ⟨tried, wired_collided h hw hr⟩
  | unsent hw hr hw' => exact ⟨_, wired_unsent h hw hr hw'⟩
  | launched hw hr hset hw' hd => exact ⟨tried, wired_launched h hw hr hset hw' (by rw [hd])⟩
  | landed hw hset => exact ⟨_, wired_landed h hw hset⟩
  | crashed hw => exact ⟨_, wired_crashed h hw⟩
  | calledOff => exact ⟨tried, wired_dropped h (.refl w) rfl (.inr rfl)⟩
  | replied hbox httl => exact ⟨tried, wired_answered h (.refl w) rfl httl⟩
  | evicted httl => exact ⟨tried, wired_answered h (.refl w) rfl rfl⟩
  | echoed hw hpong httl => exact ⟨tried, wired_answered h hw rfl rfl⟩
  | late hw hlate httl => exact ⟨tried, wired_answered h hw rfl rfl⟩
  | hungUp hw => exact ⟨tried, wired_dropped h hw rfl (.inl rfl)⟩
  | waited hw htime => exact ⟨tried, wired_waited h hw⟩
  | rested => exact ⟨tried, h⟩

theorem Course.writes {w : World} {phase : Phase} {es : Agenda} {turn : Turn}
    (hc : Course w phase es turn) : Writes (phase, w) turn := by
  cases hc with
  | opened hw hs hstart => exact .inl hw.pings
  | refused id target hw ha => exact .inl hw.pings
  | cancelled => exact .inl rfl
  | paused hw htime => exact .inl hw.pings
  | collided hw hr => exact .inl (by rw [connection_proceed, hw.pings])
  | @unsent es es' w' w'' sweep giveUp wake s m r hw hr hw' =>
      exact .inl ((Connection.pings_setTtl _ _).trans (hw.pings_lowered hw'))
  | @launched es es' w' w'' sweep giveUp wake s m r d hw hr hset hw' hd =>
      have hlow : w''.connection.ttl = sweep.ttl.toNat := hw'.ttl.trans (ttl_setTtl hset)
      exact .inr ⟨sweep, giveUp, wake, _, d, rfl, rfl, rfl, hlow,
        hw.pings_ping hset hw' d.flight.payload⟩
  | landed hw hset => exact .inl ((Connection.pings_setTtl _ _).trans hw.pings)
  | crashed hw => exact .inl ((Connection.pings_setTtl _ _).trans hw.pings)
  | calledOff => exact .inl rfl
  | replied hbox httl => exact .inl (by rw [connection_proceed]; rfl)
  | evicted httl => exact .inl (by rw [connection_proceed]; rfl)
  | echoed hw hpong httl => exact .inl (by rw [connection_proceed]; exact hw.pings)
  | late hw hlate httl => exact .inl (by rw [connection_proceed]; exact hw.pings)
  | hungUp hw => exact .inl hw.pings
  | waited hw htime => exact .inl hw.pings
  | rested => exact .inl rfl

theorem Course.records {w : World} {phase : Phase} {es : Agenda} {turn : Turn}
    (hc : Course w phase es turn) : Records (phase, w) turn := by
  cases hc with
  | opened hw hs hstart => exact .inl rfl
  | refused id target hw ha => rcases ha with rfl | ⟨reason, rfl⟩ <;> exact .inl rfl
  | cancelled => exact .inl rfl
  | paused hw htime => exact .inl rfl
  | @collided es w' sweep giveUp wake s token hw hr =>
      refine .inr ⟨_, hops_proceed .., .inr ⟨sweep, giveUp, wake, rfl, rfl, ?_⟩⟩
      intro i hi
      rw [registry_proceed]
      exact Sender.reserve_error hr i (Nat.le_sub_one_of_lt hi)
  | unsent hw hr hw' => exact .inl rfl
  | launched hw hr hset hw' hd => exact .inl rfl
  | landed hw hset => exact .inl rfl
  | crashed hw => exact .inl rfl
  | calledOff => exact .inl rfl
  | @replied sweep flight hop hbox httl =>
      exact .inr ⟨_, hops_proceed .., .inl ⟨sweep, flight, rfl, httl⟩⟩
  | @evicted sweep flight httl =>
      exact .inr ⟨_, hops_proceed .., .inl ⟨sweep, flight, rfl, rfl⟩⟩
  | @echoed es w' sweep flight hw hpong httl =>
      exact .inr ⟨_, hops_proceed .., .inl ⟨sweep, flight, rfl, rfl⟩⟩
  | @late es w' sweep flight hw hlate httl =>
      exact .inr ⟨_, hops_proceed .., .inl ⟨sweep, flight, rfl, rfl⟩⟩
  | hungUp hw => exact .inl rfl
  | waited hw htime => exact .inl rfl
  | rested => exact .inl rfl

end World

theorem Trace.wired_start (s : Setup) (now : Instant) (e : Engine) :
    World.Wired s.behaviour [] ((s.start now).phase, (s.start now).world now e) := by
  refine ⟨⟨rfl, rfl, rfl⟩, List.Pairwise.nil, ⟨rfl, rfl⟩, ?_⟩
  intro hop hmem
  cases hmem

theorem Fleet.wired_of_reaches {e : Engine} {now : Instant} {s : Trace.Setup}
    (hs : e.registry.Sound) {f : Fleet} (hr : Relation.ReflTransGen Step (e.fleet now [s]) f) :
    ∃ t tried, f.traces = [t] ∧ t.OnCourse e.config s.behaviour f.now f.engine ∧
      World.Wired s.behaviour tried (t.phase, t.world f.now f.engine) := by
  have hstart : (e.fleet now [s]).Alone fun now e' t => t.OnCourse e.config s.behaviour now e' ∧
      ∃ tried, World.Wired s.behaviour tried (t.phase, t.world now e') :=
    ⟨s.start now, rfl, .start s now hs, [], Trace.wired_start s now e⟩
  obtain ⟨t, ht, hcourse, tried, hwired⟩ := hstart.onCourse
    (fun now e' t es hcourse hwired hc hnext => by
      obtain ⟨tried, hwired⟩ := hwired
      obtain ⟨tried', hwired'⟩ := hc.wired hwired
      exact ⟨tried', hwired'.tuned, hwired'.rising, hwired'.stage, hwired'.covered⟩)
    (fun now later e' t hnot hwired => by
      obtain ⟨tried, hwired⟩ := hwired
      exact ⟨tried, hwired.tuned, hwired.rising, hwired.stage, hwired.covered⟩) hr
  exact ⟨t, tried, ht, hcourse, hwired⟩

namespace World.Wired

variable {b : Behaviour} {tried : List UInt8} {phase : Phase} {w : World}

theorem falling (h : tried.Pairwise fun x y => x < y) :
    (tried.map UInt8.toNat).reverse.Pairwise fun x y => y < x := by
  rw [List.pairwise_reverse, List.pairwise_map]
  exact h.imp fun hlt => UInt8.lt_iff_toNat_lt.mp hlt

theorem pings (h : Wired b tried (phase, w)) :
    (w.connection.pings.map Ping.ttl).Pairwise fun x y => y < x := by
  have hfall := falling h.rising
  have hstage := h.stage
  cases phase with
  | opening =>
      obtain ⟨-, hnone⟩ := hstage
      rw [hnone]
      exact List.Pairwise.nil
  | settling sweep giveUp wake =>
      obtain ⟨-, -, hpings, -⟩ := hstage
      rw [hpings]
      exact hfall
  | writing sweep d =>
      obtain ⟨-, -, hbelow, -, earlier, hping, hearlier⟩ := hstage
      rw [hping, List.map_cons, hearlier]
      refine List.pairwise_cons.mpr ⟨?_, hfall⟩
      intro n hn
      obtain ⟨ttl, hmem, rfl⟩ := List.mem_map.mp (List.mem_reverse.mp hn)
      exact UInt8.lt_iff_toNat_lt.mp (hbelow ttl hmem)
  | awaiting sweep flight =>
      obtain ⟨-, -, hpings, -⟩ := hstage
      rw [hpings]
      exact hfall
  | finished outcome at_ => exact hfall.sublist hstage.1

theorem ttl_of_writing {sweep : Sweep} {d : Departure}
    (h : Wired b tried (.writing sweep d, w)) :
    w.connection.ttl = sweep.ttl.toNat ∧ w.connection.pings.head? =
      some ⟨d.flight.sentAt, sweep.ttl.toNat, d.flight.payload⟩ := by
  obtain ⟨-, -, -, hlow, earlier, hping, -⟩ := h.stage
  exact ⟨hlow, by rw [hping]; rfl⟩

theorem ttl_of_restored (h : Wired b tried (phase, w))
    (hphase : ∀ sweep d, phase ≠ .writing sweep d) (hrest : b.Restores tried.length) :
    w.connection.ttl = b.ttl := by
  have hcalls : phase.tunings b tried = b.tunings tried := by
    cases phase with
    | writing sweep d => exact absurd rfl (hphase sweep d)
    | _ => rfl
  have htuned := h.tuned.ttl
  rw [hcalls, b.tuned_tunings hrest] at htuned
  exact htuned

theorem closed_of_unrestored (h : Wired b tried (phase, w)) {i : Nat} (hi : i < tried.length)
    (hfault : b.setTtl (2 * i + 1) b.ttl ≠ none) :
    i + 1 = tried.length ∧
      ∃ r at_, phase = .finished (.error (.connectionClosed r)) at_ := by
  have hopen : ¬ b.Restores tried.length := fun hrest => hfault (hrest i hi)
  have hstage := h.stage
  cases phase with
  | opening =>
      obtain ⟨rfl, -⟩ := hstage
      cases hi
  | settling sweep giveUp wake => exact absurd hstage.2.1 hopen
  | writing sweep d => exact absurd hstage.2.1 hopen
  | awaiting sweep flight => exact absurd hstage.2.1 hopen
  | finished outcome at_ =>
      obtain ⟨-, hrest, hend⟩ := hstage
      refine ⟨?_, ?_⟩
      · by_contra hne
        exact hfault (hrest i (by omega))
      · obtain ⟨r, rfl⟩ := hend.resolve_left hopen
        exact ⟨r, at_, rfl⟩

theorem ttl_of_finished {outcome : Except TraceError TraceResult} {at_ : Instant}
    (h : Wired b tried (.finished outcome at_, w)) :
    w.connection.ttl = b.ttl ∨ ∃ n fault r, w.connection.ttlCalls = n + 1 ∧
      b.setTtl n b.ttl = some fault ∧ outcome = .error (.connectionClosed r) := by
  by_cases hrest : b.Restores tried.length
  · refine .inl (h.ttl_of_restored ?_ hrest)
    intro sweep d hwriting
    cases hwriting
  · simp only [Behaviour.Restores, not_forall] at hrest
    obtain ⟨i, hi, hfault⟩ := hrest
    obtain ⟨hlast, r, at', hclosed⟩ := h.closed_of_unrestored hi hfault
    obtain ⟨fault, hset⟩ := Option.ne_none_iff_exists'.mp hfault
    cases hclosed
    refine .inr ⟨2 * i + 1, fault, r, ?_, hset, rfl⟩
    refine h.tuned.calls.trans ((b.length_tunings tried).trans ?_)
    omega

end World.Wired

theorem Engine.ttl_of_run (e : Engine) (history : List Registry.Operation) (now : Instant)
    (s : Trace.Setup) :
    let b := s.behaviour
    (∀ f, Relation.ReflTransGen Fleet.Step ((e.withHistory history).fleet now [s]) f →
      ∃ t tried, f.traces = [t] ∧
        t.connection.Tuned b (t.phase.tunings b tried) ∧
        (∀ sweep d, t.phase = .writing sweep d → t.connection.ttl = sweep.ttl.toNat ∧
          t.connection.pings.head? =
            some ⟨d.flight.sentAt, sweep.ttl.toNat, d.flight.payload⟩) ∧
        ((∀ sweep d, t.phase ≠ .writing sweep d) → b.Restores tried.length →
          t.connection.ttl = b.ttl) ∧
        (∀ i < tried.length, b.setTtl (2 * i + 1) b.ttl ≠ none → i + 1 = tried.length ∧
          ∃ r, t.outcome? = some (.error (.connectionClosed r))) ∧
        ((t.connection.pings.map Ping.ttl).Pairwise fun later earlier => earlier < later) ∧
        t.connection.Covers t.phase.hops ∧
        ∀ g, Fleet.Step f g → ∃ u, g.traces = [u] ∧
          World.Writes (t.phase, t.world f.now f.engine) (u.phase, u.world g.now g.engine) ∧
          World.Records (t.phase, t.world f.now f.engine) (u.phase, u.world g.now g.engine)) ∧
    let final := (e.withHistory history).run now [s.start now]
    ∃ t outcome, final.traces = [t] ∧ t.outcome? = some outcome ∧
      (t.connection.ttl = b.ttl ∨ ∃ n fault r, t.connection.ttlCalls = n + 1 ∧
        b.setTtl n b.ttl = some fault ∧ outcome = .error (.connectionClosed r)) := by
  intro b
  have hsound := Registry.sound_after_empty history
  refine ⟨?_, ?_⟩
  · intro f hf
    obtain ⟨t, tried, ht, hcourse, hwired⟩ := Fleet.wired_of_reaches hsound hf
    refine ⟨t, tried, ht, hwired.tuned, ?_, hwired.ttl_of_restored, ?_, hwired.pings,
      hwired.covered, ?_⟩
    · intro sweep d hphase
      rw [hphase] at hwired
      exact hwired.ttl_of_writing
    · intro i hi hfault
      obtain ⟨hlast, r, at_, hphase⟩ := hwired.closed_of_unrestored hi hfault
      exact ⟨hlast, r, by simp [Trace.outcome?, hphase]⟩
    · intro g hg
      rcases Fleet.step_alone ht hg with ⟨-, -, he, hu⟩ | ⟨m, -, -, -, he, hu⟩
      · obtain ⟨es, hc⟩ := Trace.course_turn f.now hcourse.valid.standing
        refine ⟨_, hu, hc.writes, ?_⟩
        rw [he]
        exact hc.records
      · exact ⟨t, hu, .inl rfl, .inl rfl⟩
  · intro final
    obtain ⟨t, tried, ht, -, hwired⟩ := Fleet.wired_of_reaches hsound
      (Fleet.reaches_run ((e.withHistory history).fleet now [s]))
    obtain ⟨outcome, at_, hphase⟩ := e.finished_of_run history ht
    rw [hphase] at hwired
    exact ⟨t, outcome, ht, by rw [Trace.outcome?, hphase], hwired.ttl_of_finished⟩

end InbandTrace
