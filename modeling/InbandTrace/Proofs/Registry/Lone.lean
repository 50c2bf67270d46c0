import InbandTrace.Proofs.Registry.Guest

namespace InbandTrace.Registry

/-- Nothing is pending but the probe that is under way, and somebody reads its mailbox. -/
structure Lone (own : Option Flight) (r : Registry) : Prop where
  sound : r.Sound
  pending : ∀ e ∈ r.entries, ∃ f ∈ own, e.token = f.token ∧ e.deadline = f.deadline ∧
    e.mailbox = f.mailbox
  opened : ∀ f ∈ own, (r.mailbox? f.mailbox).isSome

def without (r : Registry) (n : Nat) : Registry :=
  ⟨[], r.mailboxes.filter fun b => b.1 != n, r.registrations⟩

theorem filter_setMailbox (r : Registry) (n : Nat) (m : Mailbox) :
    (r.setMailbox n m).mailboxes.filter (fun b => b.1 != n) =
      r.mailboxes.filter fun b => b.1 != n := by
  simp only [setMailbox]
  induction r.mailboxes with
  | nil => rfl
  | cons b rest ih =>
      by_cases hb : b.1 = n <;> simp [hb, ih]

theorem without_close (r : Registry) (n : Nat) : (r.close n).without n = r.without n := by
  unfold close
  split
  · rw [without, filter_setMailbox]
    rfl
  · rfl

theorem without_deliver (r : Registry) (n : Nat) (hop : Hop) :
    (r.deliver n hop).2.without n = r.without n := by
  unfold deliver
  split
  · rw [without, filter_setMailbox]
    rfl
  · rfl

theorem without_foldl_close {n : Nat} {gone : List Entry} (h : ∀ e ∈ gone, e.mailbox = n)
    (r : Registry) : (gone.foldl (fun s e => s.close e.mailbox) r).without n = r.without n := by
  induction gone generalizing r with
  | nil => rfl
  | cons e rest ih =>
      rw [List.foldl_cons, ih fun x hx => h x (List.mem_cons_of_mem _ hx),
        h e List.mem_cons_self, without_close]

theorem reap_of_live {r : Registry} {now : Instant} (h : ∀ e ∈ r.entries, r.live now e = true) :
    (r.reap now).2 = r := by
  have hkept : r.entries.filter (r.live now) = r.entries := List.filter_eq_self.mpr h
  have hgone : (r.entries.filter fun e => !r.live now e) = [] := by
    rw [List.filter_eq_nil_iff]
    intro e he
    simp [h e he]
  simp [reap, hkept, hgone]

theorem Sound.lone {r : Registry} (h : r.Sound) (hfree : r.entries = []) : r.Lone none := by
  refine ⟨h, ?_, nofun⟩
  rw [hfree]
  exact nofun

namespace Lone

variable {r : Registry} {own : Option Flight} {f : Flight}

theorem same (h : r.Lone (some f)) {e : Entry} (he : e ∈ r.entries) :
    e.token = f.token ∧ e.deadline = f.deadline ∧ e.mailbox = f.mailbox := by
  obtain ⟨f', hf', hsame⟩ := h.pending e he
  cases hf'
  exact hsame

theorem live (h : r.Lone own) {now : Instant} (hearly : ∀ f ∈ own, now < f.deadline) :
    ∀ e ∈ r.entries, r.live now e = true := by
  intro e he
  obtain ⟨f, hf, -, hdeadline, hmailbox⟩ := h.pending e he
  simp [Registry.live, hdeadline, hmailbox, hearly f hf, h.opened f hf]

theorem reap_eq (h : r.Lone own) {now : Instant} (hearly : ∀ f ∈ own, now < f.deadline) :
    (r.reap now).2 = r := reap_of_live (h.live hearly)

theorem entries_of_none (h : r.Lone none) : r.entries = [] := by
  refine List.eq_nil_iff_forall_not_mem.mpr fun e he => ?_
  obtain ⟨f, hf, -⟩ := h.pending e he
  cases hf

theorem shrink (h : r.Lone own) {r' : Registry} (hs : r'.Sound)
    (he : r'.entries.Sublist r.entries)
    (hm : ∀ n, (r.mailbox? n).isSome → (r'.mailbox? n).isSome) : r'.Lone own :=
  ⟨hs, fun e hin => h.pending e (he.subset hin), fun f hf => hm _ (h.opened f hf)⟩

theorem apply (h : r.Lone own) {op : Operation} (hop : op.Passing 0) :
    (r.apply op).2.Lone own := by
  refine h.shrink (h.sound.apply op) ?_ ?_
  · rw [entries_apply_passing hop]
    exact List.filter_sublist
  · intro n hn
    cases ha : op.arrival? with
    | some a =>
        rw [(apply_of_arrival ha r).2, Registry.resolve]
        split
        · exact hn
        · rw [mailbox?_deliver, mailbox?_erase]
          split <;> simpa using hn
    | none =>
        cases op with
        | packet data source t => rwa [apply_of_malformed ha]
        | reap now =>
            simp only [Registry.apply, mailbox?_reap]
            split <;> simpa using hn
        | receive k => exact absurd hop (Nat.not_lt_zero k)
        | drop k => exact absurd hop (Nat.not_lt_zero k)
        | resolve token ip kind t => cases ha
        | register token ttl s d => exact hop.elim
        | restamp token s d => exact hop.elim
        | release token => exact hop.elim

theorem reap (h : r.Lone own) (due : Instant) : (r.reap due).2.Lone own := by
  have hpassing : (Operation.reap due).Passing 0 := trivial
  exact h.apply hpassing

theorem after (h : r.Lone own) {ops : List Operation} (hops : ∀ op ∈ ops, op.Passing 0) :
    (r.after ops).Lone own := by
  induction ops generalizing r with
  | nil => exact h
  | cons op rest ih =>
      exact ih (h.apply (hops op List.mem_cons_self)) fun op' hop' =>
        hops op' (List.mem_cons_of_mem _ hop')

theorem enter (h : r.Lone none) {r' : Registry}
    (hr : r.register f.token f.ttl f.sentAt f.deadline = some (f.mailbox, r')) :
    r'.Lone (some f) := by
  refine ⟨h.sound.register hr, ?_, ?_⟩
  · obtain ⟨-, -, rfl⟩ := register_eq_some_iff.mp hr
    simp [h.entries_of_none]
  · rintro f' hf'
    cases hf'
    simp [h.sound.mailbox?_register hr]

theorem receive (h : r.Lone own) (n : Nat) : (r.receive n).2.Lone own := by
  refine h.shrink (h.sound.receive n) (by simp) fun k hk => ?_
  rw [mailbox?_receive]
  split <;> simpa using hk

theorem without_apply (h : r.Lone (some f)) {op : Operation} (hop : op.Passing 0) :
    (r.apply op).2.without f.mailbox = r.without f.mailbox := by
  have hmailbox : ∀ e ∈ r.entries, e.mailbox = f.mailbox := fun e he => (h.same he).2.2
  cases ha : op.arrival? with
  | some a =>
      rw [(apply_of_arrival ha r).2, Registry.resolve]
      split
      · rfl
      · rename_i e hfind
        rw [hmailbox e (find?_eq_some hfind).1, without_deliver]
        rfl
  | none =>
      cases op with
      | packet data source t => rw [apply_of_malformed ha]
      | reap now =>
          exact without_foldl_close (fun e he => hmailbox e (List.mem_of_mem_filter he)) _
      | receive k => exact absurd hop (Nat.not_lt_zero k)
      | drop k => exact absurd hop (Nat.not_lt_zero k)
      | resolve token ip kind t => cases ha
      | register token ttl s d => exact hop.elim
      | restamp token s d => exact hop.elim
      | release token => exact hop.elim

theorem without_reap (h : r.Lone (some f)) (due : Instant) :
    (r.reap due).2.without f.mailbox = r.without f.mailbox := by
  have hpassing : (Operation.reap due).Passing 0 := trivial
  exact h.without_apply hpassing

theorem forget (h : r.Lone (some f)) :
    (r.release f.token).2.drop f.mailbox = r.without f.mailbox := by
  have hnone : (r.release f.token).2.entries = [] := by
    rw [entries_release, erase, List.filter_eq_nil_iff]
    intro e he
    simp [(h.same he).1]
  have hsame : (r.release f.token).2.without f.mailbox = r.without f.mailbox := by
    unfold release
    split
    · rfl
    · rename_i e hfind
      rw [(h.same (find?_eq_some hfind).1).2.2, without_close]
      rfl
  rw [← hsame, drop, hnone]
  rfl

theorem receive_of_reap (h : r.Lone (some f)) {due : Instant} (hne : (r.reap due).2 ≠ r) :
    f.deadline ≤ due ∧ r.mailbox? f.mailbox = some .waiting ∧
      (r.reap due).2.receive f.mailbox = (.closed, (r.reap due).2) := by
  -- Somebody reads the mailbox, so the sweep can only have found the entry past its deadline.
  have hlate : f.deadline ≤ due := by
    refine Nat.le_of_not_lt fun hearly => hne (h.reap_eq fun f' hf' => ?_)
    cases hf'
    exact hearly
  obtain ⟨e, he, hdead⟩ : ∃ e ∈ r.entries, r.live due e = false := by
    by_contra hall
    refine hne (reap_of_live fun e he => ?_)
    by_contra hdead
    exact hall ⟨e, he, by simpa using hdead⟩
  obtain ⟨-, -, hmailbox⟩ := h.same he
  obtain ⟨m, hm⟩ := Option.isSome_iff_exists.mp (h.opened f rfl)
  have hwaits : r.mailbox? f.mailbox = some .waiting := by
    rw [hm, h.sound.waits e he m (by rw [hmailbox, hm])]
  have hgone : f.mailbox ∈ (r.entries.filter fun e => !r.live due e).map Entry.mailbox :=
    List.mem_map.mpr ⟨e, List.mem_filter.mpr ⟨he, by simp [hdead]⟩, hmailbox⟩
  have hshut : (r.reap due).2.mailbox? f.mailbox = some .closed := by
    rw [mailbox?_reap, if_pos hgone, hwaits]
    rfl
  refine ⟨hlate, hwaits, ?_⟩
  simp only [Registry.receive, hshut]

theorem leave (h : r.Lone (some f)) : ((r.release f.token).2.drop f.mailbox).Lone none := by
  refine ⟨(h.sound.release _).drop _, ?_, nofun⟩
  rw [h.forget]
  exact nofun

end Lone

/-- Two registries that agree until the probe under way is late, and again when it is forgotten. -/
structure Level (own : Option Flight) (now : Instant) (r r' : Registry) : Prop where
  lone : r.Lone own
  lone' : r'.Lone own
  early : (∀ f ∈ own, now < f.deadline) → r' = r
  left : ∀ f ∈ own, r'.without f.mailbox = r.without f.mailbox

namespace Level

variable {own : Option Flight} {f : Flight} {now : Instant} {r r' : Registry}

theorem refl (h : r.Lone own) (now : Instant) : Level own now r r :=
  ⟨h, h, fun _ => rfl, fun _ _ => rfl⟩

theorem apply (h : Level own now r r') {op : Operation} (hop : op.Passing 0) :
    Level own now (r.apply op).2 (r'.apply op).2 := by
  refine ⟨h.lone.apply hop, h.lone'.apply hop, fun hearly => by rw [h.early hearly], ?_⟩
  intro f hf
  cases hf
  rw [h.lone.without_apply hop, h.lone'.without_apply hop, h.left f rfl]

theorem sweep (h : Level own now r r') {due : Instant} (hdue : due ≤ now) :
    Level own now r (r'.reap due).2 := by
  refine ⟨h.lone, h.lone'.reap due, fun hearly => ?_, ?_⟩
  · rw [h.lone'.reap_eq fun f hf => Nat.lt_of_le_of_lt hdue (hearly f hf), h.early hearly]
  · intro f hf
    cases hf
    exact (h.lone'.without_reap due).trans (h.left f rfl)

theorem forget (h : Level (some f) now r r') :
    (r'.release f.token).2.drop f.mailbox = (r.release f.token).2.drop f.mailbox := by
  rw [h.lone'.forget, h.lone.forget, h.left f rfl]

end Level

end InbandTrace.Registry
