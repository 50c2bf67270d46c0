import InbandTrace.Probe.Operation

namespace InbandTrace

def Mailbox.shut : Mailbox → Mailbox
  | .waiting => .closed
  | m => m

def Mailbox.put (hop : Hop) : Mailbox → Mailbox
  | .waiting => .holding hop
  | m => m

def Mailbox.taken : Mailbox → Mailbox
  | .holding _ => .closed
  | m => m

theorem Mailbox.shut_shut (m : Mailbox) : m.shut.shut = m.shut := by
  cases m <;> rfl

namespace Registry

theorem holding_of_shut {m : Option Mailbox} {hop : Hop}
    (h : m.map Mailbox.shut = some (.holding hop)) : m = some (.holding hop) := by
  rcases m with _ | (_ | _ | _) <;> simp_all [Mailbox.shut]

theorem taken_ne_holding {m : Option Mailbox} {hop : Hop} :
    m.map Mailbox.taken ≠ some (.holding hop) := by
  rcases m with _ | (_ | _ | _) <;> simp [Mailbox.taken]

theorem lookup_map_set (boxes : List (Nat × Mailbox)) (n k : Nat) (m : Mailbox) :
    (boxes.map fun b => if b.1 = n then (n, m) else b).lookup k =
      if k = n then (boxes.lookup k).map fun _ => m else boxes.lookup k := by
  induction boxes with
  | nil => simp
  | cons b rest ih =>
      obtain ⟨i, x⟩ := b
      by_cases hi : i = n
      · subst hi
        by_cases hk : k = i
        · simp [hk]
        · simpa [hk, List.lookup_cons, beq_eq_false_iff_ne.mpr hk] using ih
      · by_cases hk : k = i
        · subst hk
          simp [hi]
        · simpa [hi, List.lookup_cons, beq_eq_false_iff_ne.mpr hk] using ih

theorem lookup_filter_ne (boxes : List (Nat × Mailbox)) (n k : Nat) :
    (boxes.filter fun b => b.1 != n).lookup k = if k = n then none else boxes.lookup k := by
  induction boxes with
  | nil => simp
  | cons b rest ih =>
      obtain ⟨i, x⟩ := b
      by_cases hk : k = i
      · subst hk
        by_cases hi : k = n
        · simpa [hi] using ih
        · simp [hi]
      · by_cases hi : i = n
        · simpa [hi, List.lookup_cons, beq_eq_false_iff_ne.mpr (hi ▸ hk)] using ih
        · simpa [hi, List.lookup_cons, beq_eq_false_iff_ne.mpr hk] using ih

theorem mailbox?_setMailbox (r : Registry) (n k : Nat) (m : Mailbox) :
    (r.setMailbox n m).mailbox? k = if k = n then (r.mailbox? k).map fun _ => m else r.mailbox? k :=
  lookup_map_set r.mailboxes n k m

@[simp]
theorem mailbox?_drop (r : Registry) (n k : Nat) :
    (r.drop n).mailbox? k = if k = n then none else r.mailbox? k :=
  lookup_filter_ne r.mailboxes n k

@[simp]
theorem mailbox?_erase (r : Registry) (token : Token) (k : Nat) :
    (r.erase token).mailbox? k = r.mailbox? k := rfl

@[simp]
theorem mailbox?_restamp (r : Registry) (token : Token) (s d : Instant) (k : Nat) :
    (r.restamp token s d).2.mailbox? k = r.mailbox? k := rfl

@[simp]
theorem mailbox?_close (r : Registry) (n k : Nat) :
    (r.close n).mailbox? k = if k = n then (r.mailbox? k).map Mailbox.shut else r.mailbox? k := by
  unfold close
  split
  · rename_i h
    rw [mailbox?_setMailbox]
    by_cases hk : k = n
    · simp [hk, h, Mailbox.shut]
    · simp [hk]
  · rename_i h
    by_cases hk : k = n
    · subst hk
      rcases hm : r.mailbox? k with _ | (_ | _ | _) <;> simp_all [Mailbox.shut]
    · simp [hk]

@[simp]
theorem mailbox?_deliver (r : Registry) (n k : Nat) (hop : Hop) :
    (r.deliver n hop).2.mailbox? k =
      if k = n then (r.mailbox? k).map (Mailbox.put hop) else r.mailbox? k := by
  unfold deliver
  split
  · rename_i h
    rw [mailbox?_setMailbox]
    by_cases hk : k = n
    · simp [hk, h, Mailbox.put]
    · simp [hk]
  · rename_i h
    by_cases hk : k = n
    · subst hk
      rcases hm : r.mailbox? k with _ | (_ | _ | _) <;> simp_all [Mailbox.put]
    · simp [hk]

@[simp]
theorem mailbox?_receive (r : Registry) (n k : Nat) :
    (r.receive n).2.mailbox? k =
      if k = n then (r.mailbox? k).map Mailbox.taken else r.mailbox? k := by
  unfold receive
  split
  · rename_i h
    by_cases hk : k = n
    · simp [hk, h, Mailbox.taken]
    · simp [hk]
  · rename_i hop h
    rw [mailbox?_setMailbox]
    by_cases hk : k = n
    · simp [hk, h, Mailbox.taken]
    · simp [hk]
  · by_cases hk : k = n
    · subst hk
      rcases hm : r.mailbox? k with _ | (_ | _ | _) <;> simp_all [Mailbox.taken]
    · simp [hk]

theorem mailbox?_foldl_close (gone : List Entry) (r : Registry) (k : Nat) :
    (gone.foldl (fun s e => s.close e.mailbox) r).mailbox? k =
      if k ∈ gone.map Entry.mailbox then (r.mailbox? k).map Mailbox.shut else r.mailbox? k := by
  induction gone generalizing r with
  | nil => simp
  | cons e rest ih =>
      rw [List.foldl_cons, ih, mailbox?_close]
      by_cases hk : k = e.mailbox
      · simp [hk, Option.map_map, Function.comp_def, Mailbox.shut_shut]
      · simp [hk]

@[simp]
theorem entries_close (r : Registry) (n : Nat) : (r.close n).entries = r.entries := by
  unfold close
  split <;> rfl

@[simp]
theorem registrations_close (r : Registry) (n : Nat) :
    (r.close n).registrations = r.registrations := by
  unfold close
  split <;> rfl

@[simp]
theorem entries_deliver (r : Registry) (n : Nat) (hop : Hop) :
    (r.deliver n hop).2.entries = r.entries := by
  unfold deliver
  split <;> rfl

@[simp]
theorem registrations_deliver (r : Registry) (n : Nat) (hop : Hop) :
    (r.deliver n hop).2.registrations = r.registrations := by
  unfold deliver
  split <;> rfl

theorem registrations_resolve (r : Registry) (token : Token) (ip : Net.Ip) (kind : ReplyKind)
    (t : Instant) : (r.resolve token ip kind t).2.registrations = r.registrations := by
  unfold resolve
  split
  · rfl
  · rw [registrations_deliver]
    rfl

@[simp]
theorem entries_receive (r : Registry) (n : Nat) : (r.receive n).2.entries = r.entries := by
  unfold receive
  split <;> rfl

@[simp]
theorem registrations_receive (r : Registry) (n : Nat) :
    (r.receive n).2.registrations = r.registrations := by
  unfold receive
  split <;> rfl

theorem entries_foldl_close (gone : List Entry) (r : Registry) :
    (gone.foldl (fun s e => s.close e.mailbox) r).entries = r.entries := by
  induction gone generalizing r with
  | nil => rfl
  | cons e rest ih => rw [List.foldl_cons, ih, entries_close]

theorem registrations_foldl_close (gone : List Entry) (r : Registry) :
    (gone.foldl (fun s e => s.close e.mailbox) r).registrations = r.registrations := by
  induction gone generalizing r with
  | nil => rfl
  | cons e rest ih => rw [List.foldl_cons, ih, registrations_close]

@[simp]
theorem entries_reap (r : Registry) (now : Instant) :
    (r.reap now).2.entries = r.entries.filter (r.live now) :=
  entries_foldl_close _ _

@[simp]
theorem registrations_reap (r : Registry) (now : Instant) :
    (r.reap now).2.registrations = r.registrations :=
  registrations_foldl_close _ _

theorem mailbox?_reap (r : Registry) (now : Instant) (k : Nat) :
    (r.reap now).2.mailbox? k =
      if k ∈ (r.entries.filter fun e => !r.live now e).map Entry.mailbox
        then (r.mailbox? k).map Mailbox.shut else r.mailbox? k :=
  mailbox?_foldl_close _ _ k

theorem find?_eq_some {r : Registry} {token : Token} {e : Entry} (h : r.find? token = some e) :
    e ∈ r.entries ∧ e.token = token :=
  ⟨List.mem_of_find?_eq_some h, by simpa using List.find?_some h⟩

theorem contains_eq_false_iff {r : Registry} {token : Token} :
    r.contains token = false ↔ ∀ e ∈ r.entries, e.token ≠ token := by
  simp [contains, find?]

theorem entries_erase_of_not_contains {r : Registry} {token : Token}
    (h : r.contains token = false) : (r.erase token).entries = r.entries := by
  rw [erase, List.filter_eq_self]
  intro e he
  simpa using contains_eq_false_iff.mp h e he

theorem entries_resolve (r : Registry) (token : Token) (ip : Net.Ip) (kind : ReplyKind)
    (t : Instant) : (r.resolve token ip kind t).2.entries = (r.erase token).entries := by
  unfold resolve
  split
  · rename_i hnone
    exact (entries_erase_of_not_contains (by simp [contains, hnone])).symm
  · rw [entries_deliver]

theorem entries_release (r : Registry) (token : Token) :
    (r.release token).2.entries = (r.erase token).entries := by
  unfold release
  split
  · rename_i hnone
    exact (entries_erase_of_not_contains (by simp [contains, hnone])).symm
  · rw [entries_close]

theorem registrations_release (r : Registry) (token : Token) :
    (r.release token).2.registrations = r.registrations := by
  unfold release
  split
  · rfl
  · rw [registrations_close]
    rfl

theorem register_eq_some_iff {r r' : Registry} {token : Token} {ttl : UInt8} {s d : Instant}
    {n : Nat} :
    r.register token ttl s d = some (n, r') ↔
      r.contains token = false ∧ n = r.registrations ∧
        r' = ⟨r.entries ++ [⟨token, ttl, s, d, n⟩], r.mailboxes ++ [(n, .waiting)], n + 1⟩ := by
  unfold register
  split
  · rename_i h
    simp [h]
  · rename_i h
    simp only [Option.some.injEq, Prod.mk.injEq, Bool.not_eq_true] at h ⊢
    constructor
    · rintro ⟨rfl, rfl⟩
      exact ⟨h, rfl, rfl⟩
    · rintro ⟨_, rfl, rfl⟩
      exact ⟨rfl, rfl⟩

section Holding

variable {r : Registry} {n : Nat} {hop : Hop}

theorem holding_of_register {r' : Registry} {token : Token} {ttl : UInt8} {s d : Instant} {k : Nat}
    (hr : r.register token ttl s d = some (k, r')) (h : r'.mailbox? n = some (.holding hop)) :
    r.mailbox? n = some (.holding hop) := by
  obtain ⟨-, rfl, rfl⟩ := register_eq_some_iff.mp hr
  simp only [mailbox?, List.lookup_append] at h ⊢
  rcases Option.or_eq_some_iff.mp h with hold | ⟨-, hnew⟩
  · exact hold
  · simp only [List.lookup_cons, List.lookup_nil] at hnew
    split at hnew <;> cases hnew

theorem holding_of_resolve {token : Token} {ip : Net.Ip} {kind : ReplyKind} {t : Instant}
    (h : (r.resolve token ip kind t).2.mailbox? n = some (.holding hop)) :
    r.mailbox? n = some (.holding hop) ∨ ∃ e ∈ r.entries, e.token = token ∧ e.mailbox = n ∧
      hop = .resolved e.ttl ip (t - e.sentAt) kind := by
  rw [resolve] at h
  split at h
  · exact .inl h
  · rename_i e hfind
    obtain ⟨he, htoken⟩ := find?_eq_some hfind
    rw [mailbox?_deliver, mailbox?_erase] at h
    split at h
    · rename_i hn
      rcases hm : r.mailbox? n with _ | (_ | x | _) <;> simp [hm, Mailbox.put] at h
      · exact .inr ⟨e, he, htoken, hn.symm, h.symm⟩
      · exact .inl (by rw [h])
    · exact .inl h

theorem holding_of_release {token : Token}
    (h : (r.release token).2.mailbox? n = some (.holding hop)) :
    r.mailbox? n = some (.holding hop) := by
  rw [release] at h
  split at h
  · exact h
  · rw [mailbox?_close, mailbox?_erase] at h
    split at h
    · exact holding_of_shut h
    · exact h

theorem holding_of_reap {now : Instant} (h : (r.reap now).2.mailbox? n = some (.holding hop)) :
    r.mailbox? n = some (.holding hop) := by
  rw [mailbox?_reap] at h
  split at h
  · exact holding_of_shut h
  · exact h

theorem holding_of_receive {k : Nat} (h : (r.receive k).2.mailbox? n = some (.holding hop)) :
    r.mailbox? n = some (.holding hop) := by
  rw [mailbox?_receive] at h
  split at h
  · exact absurd h taken_ne_holding
  · exact h

theorem holding_of_drop {k : Nat} (h : (r.drop k).mailbox? n = some (.holding hop)) :
    r.mailbox? n = some (.holding hop) := by
  rw [mailbox?_drop] at h
  split at h
  · cases h
  · exact h

end Holding

end Registry

end InbandTrace
