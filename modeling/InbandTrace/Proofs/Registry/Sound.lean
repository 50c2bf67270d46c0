import InbandTrace.Proofs.Registry.Mailbox
import Mathlib.Data.List.Nodup

namespace InbandTrace.Registry

structure Sound (r : Registry) : Prop where
  owned : ∀ e ∈ r.entries, e.mailbox < r.registrations
  unopened : ∀ n, r.registrations ≤ n → r.mailbox? n = none
  tokens : (r.entries.map Entry.token).Nodup
  owners : (r.entries.map Entry.mailbox).Nodup
  waits : ∀ e ∈ r.entries, ∀ m, r.mailbox? e.mailbox = some m → m = .waiting

theorem sound_empty : Sound empty := by
  constructor <;> simp [empty, mailbox?]

namespace Sound

variable {r : Registry}

theorem eq_of_token (h : r.Sound) {e e' : Entry} (he : e ∈ r.entries) (he' : e' ∈ r.entries)
    (ht : e.token = e'.token) : e = e' :=
  List.inj_on_of_nodup_map h.tokens he he' ht

theorem eq_of_mailbox (h : r.Sound) {e e' : Entry} (he : e ∈ r.entries) (he' : e' ∈ r.entries)
    (hm : e.mailbox = e'.mailbox) : e = e' :=
  List.inj_on_of_nodup_map h.owners he he' hm

theorem find?_of_mem (h : r.Sound) {e : Entry} (he : e ∈ r.entries) :
    r.find? e.token = some e := by
  cases hf : r.find? e.token with
  | none =>
      simp only [find?, List.find?_eq_none, beq_iff_eq] at hf
      exact absurd rfl (hf e he)
  | some e' =>
      obtain ⟨he', ht⟩ := find?_eq_some hf
      rw [h.eq_of_token he' he ht]

theorem shrink (h : r.Sound) {r' : Registry} (p : Entry → Bool)
    (he : r'.entries = r.entries.filter p) (hn : r'.registrations = r.registrations)
    (hm : ∀ n, r.mailbox? n = none → r'.mailbox? n = none)
    (hw : ∀ e ∈ r'.entries, ∀ m, r'.mailbox? e.mailbox = some m →
      r.mailbox? e.mailbox = some m ∨ m = .waiting) : r'.Sound := by
  have hmem : ∀ e ∈ r'.entries, e ∈ r.entries := by
    intro e hin
    rw [he] at hin
    exact List.mem_of_mem_filter hin
  refine ⟨?_, ?_, ?_, ?_, ?_⟩
  · intro e hin
    rw [hn]
    exact h.owned e (hmem e hin)
  · intro n hle
    exact hm n (h.unopened n (hn ▸ hle))
  · rw [he]
    exact h.tokens.sublist (List.filter_sublist.map _)
  · rw [he]
    exact h.owners.sublist (List.filter_sublist.map _)
  · intro e hin m hbox
    rcases hw e hin m hbox with hold | rfl
    · exact h.waits e (hmem e hin) m hold
    · rfl

theorem mailbox?_register (h : r.Sound) {token : Token} {ttl : UInt8} {s d : Instant} {n : Nat}
    {r' : Registry} (hr : r.register token ttl s d = some (n, r')) (k : Nat) :
    r'.mailbox? k = if k = n then some .waiting else r.mailbox? k := by
  obtain ⟨-, rfl, rfl⟩ := register_eq_some_iff.mp hr
  simp only [mailbox?, List.lookup_append]
  by_cases hk : k = r.registrations
  · have hnone := h.unopened k (Nat.le_of_eq hk.symm)
    simp only [mailbox?] at hnone
    simp [hk ▸ hnone, hk]
  · simp [hk, List.lookup_cons, beq_eq_false_iff_ne.mpr hk]

theorem register (h : r.Sound) {token : Token} {ttl : UInt8} {s d : Instant} {n : Nat}
    {r' : Registry} (hr : r.register token ttl s d = some (n, r')) : r'.Sound := by
  have hbox := h.mailbox?_register hr
  obtain ⟨hfree, rfl, rfl⟩ := register_eq_some_iff.mp hr
  refine ⟨?_, ?_, ?_, ?_, ?_⟩
  · intro e he
    rcases List.mem_append.mp he with he | he
    · exact Nat.lt_succ_of_lt (h.owned e he)
    · simp only [List.mem_singleton] at he
      subst he
      exact Nat.lt_succ_self _
  · intro k hk
    rw [hbox, if_neg (by simp only at hk; omega)]
    exact h.unopened k (Nat.le_of_succ_le hk)
  · simp only [List.map_append, List.map_cons, List.map_nil]
    refine List.nodup_append.mpr ⟨h.tokens, by simp, ?_⟩
    rintro t ht t' ht' rfl
    obtain ⟨e, he, rfl⟩ := List.mem_map.mp ht
    exact contains_eq_false_iff.mp hfree e he (by simpa using ht')
  · simp only [List.map_append, List.map_cons, List.map_nil]
    refine List.nodup_append.mpr ⟨h.owners, by simp, ?_⟩
    rintro k hk k' hk' rfl
    obtain ⟨e, he, rfl⟩ := List.mem_map.mp hk
    exact absurd (by simpa using hk') (Nat.ne_of_lt (h.owned e he))
  · intro e he m hm
    rw [hbox] at hm
    rcases List.mem_append.mp he with he | he
    · rw [if_neg (Nat.ne_of_lt (h.owned e he))] at hm
      exact h.waits e he m hm
    · simp only [List.mem_singleton] at he
      subst he
      simpa using hm.symm

theorem resolve (h : r.Sound) (token : Token) (ip : Net.Ip) (kind : ReplyKind) (t : Instant) :
    (r.resolve token ip kind t).2.Sound := by
  unfold Registry.resolve
  split
  · exact h
  · rename_i gone hg
    obtain ⟨hgone, rfl⟩ := find?_eq_some hg
    refine h.shrink (fun e => e.token != gone.token) (by simp [erase]) (by simp [erase]) ?_ ?_
    · intro n hn
      simp [hn]
    · intro e he m hm
      simp only [entries_deliver, erase, List.mem_filter, bne_iff_ne, ne_eq] at he
      rw [mailbox?_deliver, mailbox?_erase, if_neg] at hm
      · exact .inl hm
      · intro hsame
        exact he.2 (congrArg Entry.token (h.eq_of_mailbox he.1 hgone hsame))

theorem resolve_of_waiting (h : r.Sound) {e : Entry} (he : e ∈ r.entries)
    (hbox : r.mailbox? e.mailbox = some .waiting) (ip : Net.Ip) (kind : ReplyKind) (t : Instant) :
    r.resolve e.token ip kind t = (true, (r.erase e.token).setMailbox e.mailbox
      (.holding (.resolved e.ttl ip (t - e.sentAt) kind))) := by
  have hfind := h.find?_of_mem he
  have herased : (r.erase e.token).mailbox? e.mailbox = some .waiting := by
    rw [mailbox?_erase, hbox]
  simp only [Registry.resolve, hfind, deliver, herased]

theorem restamp (h : r.Sound) (token : Token) (s d : Instant) :
    (r.restamp token s d).2.Sound := by
  have hproj : ∀ {β : Type} (f : Entry → β),
      (∀ e : Entry, f { e with sentAt := s, deadline := d } = f e) →
      (r.restamp token s d).2.entries.map f = r.entries.map f := by
    intro β f hf
    simp only [Registry.restamp, List.map_map]
    refine List.map_congr_left fun e _ => ?_
    simp only [Function.comp_apply]
    split
    · exact hf e
    · rfl
  refine ⟨?_, h.unopened, ?_, ?_, ?_⟩
  · intro e he
    have hmem := List.mem_map_of_mem (f := Entry.mailbox) he
    rw [hproj Entry.mailbox fun _ => rfl] at hmem
    obtain ⟨e', he', hsame⟩ := List.mem_map.mp hmem
    exact hsame ▸ h.owned e' he'
  · rw [hproj Entry.token fun _ => rfl]
    exact h.tokens
  · rw [hproj Entry.mailbox fun _ => rfl]
    exact h.owners
  · intro e he m hm
    have hmem := List.mem_map_of_mem (f := Entry.mailbox) he
    rw [hproj Entry.mailbox fun _ => rfl] at hmem
    obtain ⟨e', he', hsame⟩ := List.mem_map.mp hmem
    rw [mailbox?_restamp, ← hsame] at hm
    exact h.waits e' he' m hm

theorem release (h : r.Sound) (token : Token) : (r.release token).2.Sound := by
  unfold Registry.release
  split
  · exact h
  · rename_i gone hg
    obtain ⟨hgone, rfl⟩ := find?_eq_some hg
    refine h.shrink (fun e => e.token != gone.token) (by simp [erase]) (by simp [erase]) ?_ ?_
    · intro n hn
      simp [hn]
    · intro e he m hm
      simp only [entries_close, erase, List.mem_filter, bne_iff_ne, ne_eq] at he
      rw [mailbox?_close, mailbox?_erase, if_neg] at hm
      · exact .inl hm
      · intro hsame
        exact he.2 (congrArg Entry.token (h.eq_of_mailbox he.1 hgone hsame))

theorem reap (h : r.Sound) (now : Instant) : (r.reap now).2.Sound := by
  refine h.shrink (r.live now) (by simp) (by simp) ?_ ?_
  · intro n hn
    simp [mailbox?_reap, hn]
  · intro e he m hm
    rw [entries_reap, List.mem_filter] at he
    rw [mailbox?_reap, if_neg] at hm
    · exact .inl hm
    · intro hdead
      obtain ⟨gone, hgone, hsame⟩ := List.mem_map.mp hdead
      rw [List.mem_filter] at hgone
      rw [h.eq_of_mailbox hgone.1 he.1 hsame] at hgone
      simp [he.2] at hgone

theorem receive (h : r.Sound) (n : Nat) : (r.receive n).2.Sound := by
  refine ⟨by simpa using h.owned, ?_, by simpa using h.tokens, by simpa using h.owners, ?_⟩
  · intro k hk
    simp [h.unopened k (by simpa using hk)]
  · intro e he m hm
    rw [entries_receive] at he
    rw [mailbox?_receive] at hm
    split at hm
    · obtain ⟨m', hm', rfl⟩ := Option.map_eq_some_iff.mp hm
      rw [h.waits e he m' hm']
      rfl
    · exact h.waits e he m hm

theorem drop (h : r.Sound) (n : Nat) : (r.drop n).Sound := by
  refine ⟨h.owned, ?_, h.tokens, h.owners, ?_⟩
  · intro k hk
    simp [h.unopened k hk]
  · intro e he m hm
    rw [mailbox?_drop] at hm
    split at hm
    · cases hm
    · exact h.waits e he m hm

end Sound

theorem dispatch_eq (r : Registry) (data : Packet.Bytes) (source : Net.Ip) (t : Instant) :
    (r.dispatch data source t).2 = match Packet.Reply.ofDatagram data source with
      | .error _ => r
      | .ok reply => (r.resolve reply.token reply.responder reply.kind t).2 := by
  unfold dispatch
  cases Packet.Reply.ofDatagram data source with
  | error e => rfl
  | ok reply => rfl

theorem Sound.dispatch {r : Registry} (h : r.Sound) (data : Packet.Bytes) (source : Net.Ip)
    (t : Instant) : (r.dispatch data source t).2.Sound := by
  rw [dispatch_eq]
  split
  · exact h
  · exact h.resolve ..

theorem Sound.apply {r : Registry} (h : r.Sound) (op : Operation) : (r.apply op).2.Sound := by
  cases op with
  | register token ttl s d =>
      simp only [Registry.apply]
      split
      · exact h
      · exact h.register ‹_›
  | resolve token ip kind t => exact h.resolve token ip kind t
  | restamp token s d => exact h.restamp token s d
  | release token => exact h.release token
  | packet data source t => exact h.dispatch data source t
  | reap now => exact h.reap now
  | receive n => exact h.receive n
  | drop n => exact h.drop n

theorem Sound.after {r : Registry} (h : r.Sound) (ops : List Operation) : (r.after ops).Sound := by
  induction ops generalizing r with
  | nil => exact h
  | cons op rest ih => exact ih (h.apply op)

theorem sound_after_empty (ops : List Operation) : (empty.after ops).Sound := sound_empty.after ops

end InbandTrace.Registry
