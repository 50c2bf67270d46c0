import InbandTrace.Proofs.Session.History

namespace InbandTrace

namespace Session

/-- The hops are those of the first TTL and of the ones after it, and a settled TTL is the last
of them. -/
structure Contiguous (s : Session) : Prop where
  ttls : s.ttls.map UInt8.toNat = List.range' s.firstTtl.toNat s.hops.length
  last : ∀ ttl, s.settled? = some ttl → s.ttls.getLast? = some ttl

def probed? (s : Session) : Option UInt8 :=
  match s.state with
  | .probing ttl | .awaitingResponse ttl => some ttl
  | _ => none

structure OnTrack (s : Session) : Prop extends s.Contiguous where
  fresh : s.state = .idle → s.hops = []
  next : ∀ ttl, s.probed? = some ttl → ttl.toNat = s.firstTtl.toNat + s.hops.length

/-- A move that is allowed and leaves a TTL without a hop: the sweep starts at another TTL than
its first, or a TTL is settled without a hop being recorded. -/
def Skips (s : Session) : Operation → Prop
  | .transition (.probing ttl) => s.state = .idle ∧ ttl ≠ s.firstTtl
  | .transition (.hopRecorded ttl) => s.state = .awaitingResponse ttl
  | .transition (.hopTimedOut ttl) => s.state = .awaitingResponse ttl
  | _ => False

theorem Contiguous.toNat_settled {s : Session} (h : s.Contiguous) {ttl : UInt8}
    (hset : s.settled? = some ttl) : ttl.toNat + 1 = s.firstTtl.toNat + s.hops.length := by
  have hlast := congrArg (Option.map UInt8.toNat) (h.last ttl hset)
  rw [← List.getLast?_map, h.ttls, List.getLast?_range'] at hlast
  split at hlast
  · cases hlast
  · have := Option.some.inj hlast
    omega

theorem onTrack_start (id : String) (target : Net.Ip) (firstTtl maxHops : UInt8)
    (now : Timestamp) : (start id target firstTtl maxHops now).OnTrack where
  ttls := rfl
  last _ h := nomatch h
  fresh _ := rfl
  next _ h := nomatch h

theorem probed?_eq_some (s : Session) (ttl : UInt8) :
    s.probed? = some ttl ↔ s.state = .probing ttl ∨ s.state = .awaitingResponse ttl := by
  cases hs : s.state <;> simp [probed?, hs]

theorem allows_probed {a b : SessionState} {ttl : UInt8} (hallow : a.allows b = true)
    (hb : b = .probing ttl ∨ b = .awaitingResponse ttl) :
    (a = .idle ∧ b = .probing ttl) ∨ a = .probing ttl ∨
      ∃ t, (a = .hopRecorded t ∨ a = .hopTimedOut t) ∧ ttl.toNat = t.toNat + 1 := by
  rcases hb with rfl | rfl <;> cases a <;> simp_all [SessionState.allows]

theorem OnTrack.moved {s : Session} (h : s.OnTrack) {op : Operation} (hhop : op.hop? = none)
    (hallow : s.state.allows (s.aim op) = true)
    (hfirst : ∀ ttl, s.state = .idle → s.aim op = .probing ttl → ttl = s.firstTtl)
    (hsettle : (s.moved op).settled? = none) : (s.moved op).OnTrack := by
  have hhops : (s.moved op).hops = s.hops := by simp [Session.moved, hhop]
  have httls : (s.moved op).ttls = s.ttls := by simp [ttls_moved, hhop]
  refine ⟨⟨?_, fun ttl hset => ?_⟩, fun hidle => ?_, fun ttl hprobe => ?next⟩
  · rw [httls, hhops]
    exact h.ttls
  · rw [hsettle] at hset
    cases hset
  · have hidle' : s.aim op = .idle := hidle
    cases hs : s.state <;> simp [hs, hidle', SessionState.allows] at hallow
  case next =>
    rw [hhops]
    show ttl.toNat = s.firstTtl.toNat + s.hops.length
    rcases allows_probed hallow ((probed?_eq_some _ ttl).mp hprobe) with
      ⟨hs, haim⟩ | hs | ⟨t, hs, hstep⟩
    · simp [hfirst ttl hs haim, h.fresh hs]
    · exact h.next ttl ((s.probed?_eq_some ttl).mpr (.inl hs))
    · have hset := h.toNat_settled ((s.settled?_eq_some t).mpr hs)
      omega

theorem OnTrack.recorded {s : Session} (h : s.OnTrack) {hop : Hop}
    (hawait : s.state = .awaitingResponse hop.ttl) : (s.moved (.record hop)).OnTrack := by
  have httls : (s.moved (.record hop)).ttls = s.ttls ++ [hop.ttl] := by
    simp [ttls_moved, Operation.hop?]
  have hstate : (s.moved (.record hop)).state = .hopTimedOut hop.ttl ∨
      (s.moved (.record hop)).state = .hopRecorded hop.ttl := by
    simp only [Session.moved, aim]
    split <;> simp
  have hnext := h.next hop.ttl (by simp [probed?, hawait])
  refine ⟨⟨?_, fun ttl hset => ?_⟩, ?_, ?_⟩
  · have hlength : (s.moved (.record hop)).hops.length = s.hops.length + 1 := by
      simp [Session.moved, Operation.hop?]
    rw [httls, hlength, List.range'_concat, List.map_append, h.ttls, Nat.one_mul]
    exact congrArg _ (congrArg (fun n => [n]) hnext)
  · have hsame : hop.ttl = ttl := by rcases hstate with hs | hs <;> simpa [settled?, hs] using hset
    rw [httls, List.getLast?_concat, hsame]
  · rcases hstate with hs | hs <;> simp [hs]
  · rcases hstate with hs | hs <;> simp [probed?, hs]

theorem after_of_skips {s : Session} {op : Operation} (hskip : s.Skips op) :
    (∃ ttl, s.state = .idle ∧ ttl ≠ s.firstTtl ∧ s.after op = { s with state := .probing ttl }) ∨
      ∃ ttl, s.state = .awaitingResponse ttl ∧ (s.after op).settled? = some ttl ∧
        (s.after op).firstTtl = s.firstTtl ∧ (s.after op).hops = s.hops := by
  unfold Skips at hskip
  split at hskip
  case h_1 ttl =>
    refine .inl ⟨ttl, hskip.1, hskip.2, ?_⟩
    simp [after_eq, aim, hskip.1, SessionState.allows, Session.moved, Operation.hop?]
  case h_2 ttl | h_3 ttl =>
    refine .inr ⟨ttl, hskip, ?_⟩
    simp [after_eq, aim, hskip, SessionState.allows, Session.moved, Operation.hop?, settled?]
  case h_4 => cases hskip

theorem OnTrack.skipped {s : Session} (h : s.OnTrack) {op : Operation} (hskip : s.Skips op) :
    ¬(s.after op).OnTrack ∧ ∃ more, ¬((s.after op).run more).Contiguous := by
  rcases after_of_skips hskip with ⟨ttl, hidle, hother, hafter⟩ | ⟨ttl, hawait, hset, hfirst, hhops⟩
  · have hnone := h.fresh hidle
    have hne : ttl.toNat ≠ s.firstTtl.toNat := fun heq => hother (UInt8.toNat_inj.mp heq)
    rw [hafter]
    refine ⟨fun htrack => hne ?_,
      [.transition (.awaitingResponse ttl), .record (.timedOut ttl)], fun hcontig => hne ?_⟩
    · simpa [hnone] using htrack.next ttl rfl
    · simpa [run, after_eq, aim, SessionState.allows, Session.moved, Operation.hop?, ttls, hnone,
        Hop.timedOut] using hcontig.ttls
  -- The TTL at hand counts as settled although the last hop is the one before it.
  · have hgap : ¬(s.after op).Contiguous := by
      intro hcontig
      have hsettled := hcontig.toNat_settled hset
      have hnext := h.next ttl ((s.probed?_eq_some ttl).mpr (.inr hawait))
      rw [hfirst, hhops] at hsettled
      omega
    exact ⟨fun htrack => hgap htrack.toContiguous, [], hgap⟩

theorem aim_advance (s : Session) :
    s.aim .advance = .completed ∨ ∃ ttl, s.aim .advance = .probing ttl := by
  cases hset : s.settled? with
  | none => exact .inl (by simp [aim, hset])
  | some ttl =>
      simp only [aim, hset, following]
      split
      · exact .inl rfl
      · exact .inr ⟨_, rfl⟩

theorem OnTrack.after_iff {s : Session} (h : s.OnTrack) (op : Operation) :
    (s.after op).OnTrack ↔ ¬s.Skips op := by
  refine ⟨fun htrack hskip => (h.skipped hskip).1 htrack, fun hskip => ?_⟩
  refine after_induction h op fun hallow => ?_
  cases op with
  | begin =>
      refine h.moved rfl hallow (fun ttl _ haim => ?_) rfl
      exact (SessionState.probing.inj haim).symm
  | transition next =>
      refine h.moved rfl hallow (fun ttl hidle haim => ?_) ?settle
      · have haim' : next = .probing ttl := haim
        subst haim'
        exact Decidable.byContradiction fun hne => hskip ⟨hidle, hne⟩
      case settle =>
        cases next with
        | hopRecorded ttl | hopTimedOut ttl =>
            refine absurd ?_ hskip
            cases hs : s.state <;> simp_all [aim, SessionState.allows, Skips]
        | idle | probing | awaitingResponse | completed | aborted => rfl
  | record hop => exact h.recorded ((s.allows_aim_record hop).mp hallow)
  | advance =>
      refine h.moved rfl hallow (fun ttl hidle haim => ?_) ?settle
      · simp [aim, settled?, hidle] at haim
      case settle =>
        rcases s.aim_advance with haim | ⟨ttl, haim⟩ <;> simp [settled?, Session.moved, haim]
  | abort =>
      refine h.moved rfl hallow (fun ttl _ haim => ?_) rfl
      cases haim

theorem OnTrack.run_iff {s : Session} (h : s.OnTrack) (ops : List Operation) :
    (∀ k, (s.run (ops.take k)).OnTrack) ↔
      ∀ k op, ops[k]? = some op → ¬(s.run (ops.take k)).Skips op := by
  induction ops generalizing s with
  | nil => simp [run, h]
  | cons op ops ih =>
      constructor
      · intro htrack k op' hk
        have hafter : (s.after op).OnTrack := htrack 1
        cases k with
        | zero => exact Option.some.inj hk ▸ (h.after_iff op).mp hafter
        | succ k => exact (ih hafter).mp (fun k => htrack (k + 1)) k op' hk
      · intro hskip k
        cases k with
        | zero => exact h
        | succ k =>
            have hafter := (h.after_iff op).mpr (hskip 0 op rfl)
            exact (ih hafter).mpr (fun k => hskip (k + 1)) k

theorem contiguous_iff_of_start (id : String) (target : Net.Ip) (firstTtl maxHops : UInt8)
    (now : Timestamp) (ops : List Operation) :
    let s k := (start id target firstTtl maxHops now).run (ops.take k)
    ((∀ k, (s k).OnTrack) ↔ ∀ k op, ops[k]? = some op → ¬(s k).Skips op) ∧
      ∀ k, (s k).OnTrack →
        (s k).Contiguous ∧
          ∀ op, (s k).Skips op → ∃ more, ¬((s k).run (op :: more)).Contiguous := by
  intro s
  refine ⟨(onTrack_start id target firstTtl maxHops now).run_iff ops, fun k htrack => ?_⟩
  exact ⟨htrack.toContiguous, fun op hskip => (htrack.skipped hskip).2⟩

theorem not_contiguous_of_settling :
    ¬∀ (id : String) (target : Net.Ip) (firstTtl maxHops : UInt8) (now : Timestamp)
      (ops : List Operation), ((start id target firstTtl maxHops now).run ops).Contiguous := by
  intro h
  have hgap := (h "s" (.v4 ⟨203, 0, 113, 7⟩) 1 30 default [.begin, .transition (.awaitingResponse 1),
    .transition (.hopTimedOut 1), .advance, .transition (.awaitingResponse 2),
    .record (.timedOut 2)]).ttls
  exact absurd hgap (by decide)

end Session

end InbandTrace
