import InbandTrace.Proofs.Registry.Sound

namespace InbandTrace

def Hop.Answers (hop : Hop) (Q : Entry → Prop) : Prop :=
  ∃ e responder receivedAt kind,
    Q e ∧ hop = .resolved e.ttl responder (receivedAt - e.sentAt) kind

namespace Registry

def Operation.Keeps (Q : Entry → Prop) : Operation → Prop
  | .restamp token s d => ∀ e, e.token = token → Q e → Q { e with sentAt := s, deadline := d }
  | _ => True

/-- Registration number `n` stands for an entry with property `Q`, pending or answered. -/
structure Assigned (r : Registry) (n : Nat) (Q : Entry → Prop) : Prop where
  opened : n < r.registrations
  entry : ∀ e ∈ r.entries, e.mailbox = n → Q e
  hop : ∀ hop, r.mailbox? n = some (.holding hop) → hop.Answers Q

theorem Sound.assigned {r r' : Registry} (h : r.Sound) {token : Token} {ttl : UInt8}
    {s d : Instant} {n : Nat} (hr : r.register token ttl s d = some (n, r')) {Q : Entry → Prop}
    (hq : Q ⟨token, ttl, s, d, n⟩) : r'.Assigned n Q := by
  obtain ⟨-, rfl, rfl⟩ := register_eq_some_iff.mp hr
  refine ⟨Nat.lt_succ_self _, ?_, ?_⟩
  · intro e he hn
    rcases List.mem_append.mp he with he | he
    · exact absurd hn (Nat.ne_of_lt (h.owned e he))
    · simp only [List.mem_singleton] at he
      exact he ▸ hq
  · intro hop hbox
    have hnone := h.unopened r.registrations (Nat.le_refl _)
    simp only [mailbox?] at hnone
    simp [mailbox?, List.lookup_append, hnone] at hbox

namespace Assigned

variable {r : Registry} {n : Nat} {Q : Entry → Prop}

theorem transfer (h : r.Assigned n Q) {r' : Registry} (hreg : r.registrations ≤ r'.registrations)
    (he : ∀ e ∈ r'.entries, e.mailbox = n → e ∈ r.entries ∨ Q e)
    (hm : ∀ hop, r'.mailbox? n = some (.holding hop) →
      r.mailbox? n = some (.holding hop) ∨ hop.Answers Q) : r'.Assigned n Q := by
  refine ⟨Nat.lt_of_lt_of_le h.opened hreg, ?_, ?_⟩
  · intro e hin hn
    rcases he e hin hn with hold | hq
    · exact h.entry e hold hn
    · exact hq
  · intro hop hbox
    rcases hm hop hbox with hold | hans
    · exact h.hop hop hold
    · exact hans

theorem register (h : r.Assigned n Q) {token : Token} {ttl : UInt8} {s d : Instant} {k : Nat}
    {r' : Registry} (hr : r.register token ttl s d = some (k, r')) : r'.Assigned n Q := by
  have hbox : ∀ hop, r'.mailbox? n = some (.holding hop) → r.mailbox? n = some (.holding hop) :=
    fun _ => holding_of_register hr
  obtain ⟨-, rfl, rfl⟩ := register_eq_some_iff.mp hr
  have hne : n ≠ r.registrations := Nat.ne_of_lt h.opened
  refine h.transfer (Nat.le_succ _) ?_ fun hop hholding => .inl (hbox hop hholding)
  intro e he hn
  rcases List.mem_append.mp he with he | he
  · exact .inl he
  · simp only [List.mem_singleton] at he
    subst he
    exact absurd hn.symm hne

theorem resolve (h : r.Assigned n Q) (token : Token) (ip : Net.Ip) (kind : ReplyKind)
    (t : Instant) : (r.resolve token ip kind t).2.Assigned n Q := by
  refine h.transfer (Nat.le_of_eq (registrations_resolve ..).symm) ?_ ?_
  · intro e he _
    rw [entries_resolve] at he
    exact .inl (List.mem_of_mem_filter he)
  · intro hop hbox
    rcases holding_of_resolve hbox with hold | ⟨e, he, -, hn, rfl⟩
    · exact .inl hold
    · exact .inr ⟨e, ip, t, kind, h.entry e he hn, rfl⟩

theorem restamp (h : r.Assigned n Q) {token : Token} {s d : Instant}
    (hq : Operation.Keeps Q (.restamp token s d)) : (r.restamp token s d).2.Assigned n Q := by
  refine h.transfer (Nat.le_refl _) ?_ (fun hop hbox => .inl hbox)
  intro e he hn
  obtain ⟨e', he', rfl⟩ := List.mem_map.mp he
  by_cases ht : e'.token = token
  · rw [if_pos ht] at hn ⊢
    exact .inr (hq e' ht (h.entry e' he' hn))
  · rw [if_neg ht]
    exact .inl he'

theorem release (h : r.Assigned n Q) (token : Token) : (r.release token).2.Assigned n Q := by
  refine h.transfer (Nat.le_of_eq (registrations_release ..).symm) ?_ ?_
  · intro e he _
    rw [entries_release] at he
    exact .inl (List.mem_of_mem_filter he)
  · exact fun hop hbox => .inl (holding_of_release hbox)

theorem reap (h : r.Assigned n Q) (now : Instant) : (r.reap now).2.Assigned n Q := by
  refine h.transfer (by simp) ?_ (fun hop hbox => .inl (holding_of_reap hbox))
  intro e he _
  rw [entries_reap] at he
  exact .inl (List.mem_of_mem_filter he)

theorem receive (h : r.Assigned n Q) (k : Nat) : (r.receive k).2.Assigned n Q :=
  h.transfer (by simp) (fun e he _ => .inl (by simpa using he))
    fun hop hbox => .inl (holding_of_receive hbox)

theorem drop (h : r.Assigned n Q) (k : Nat) : (r.drop k).Assigned n Q :=
  h.transfer (Nat.le_refl _) (fun _ he _ => .inl he) fun _ hbox => .inl (holding_of_drop hbox)

theorem apply (h : r.Assigned n Q) {op : Operation} (hq : op.Keeps Q) :
    (r.apply op).2.Assigned n Q := by
  cases op with
  | register token ttl s d =>
      simp only [Registry.apply]
      split
      · exact h
      · exact h.register ‹_›
  | resolve token ip kind t => exact h.resolve token ip kind t
  | restamp token s d => exact h.restamp hq
  | release token => exact h.release token
  | packet data source t =>
      simp only [Registry.apply, dispatch_eq]
      split
      · exact h
      · exact h.resolve ..
  | reap now => exact h.reap now
  | receive k => exact h.receive k
  | drop k => exact h.drop k

theorem after (h : r.Assigned n Q) {ops : List Operation} (hq : ∀ op ∈ ops, op.Keeps Q) :
    (r.after ops).Assigned n Q := by
  induction ops generalizing r with
  | nil => exact h
  | cons op rest ih =>
      exact ih (h.apply (hq op (by simp))) fun op' hop' => hq op' (by simp [hop'])

end Assigned

theorem Operation.keeps_ttl (op : Operation) (ttl : UInt8) : op.Keeps fun e => e.ttl = ttl := by
  cases op with
  | restamp token s d =>
      intro e _ hq
      exact hq
  | _ => trivial

end Registry

end InbandTrace
