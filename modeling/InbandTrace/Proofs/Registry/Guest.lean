import InbandTrace.Proofs.Registry.Tenure
import InbandTrace.Sender.Basic

namespace InbandTrace.Registry

/-- What may happen beside a trace: replies, sweeps, and the use of mailboxes that were opened
before it. -/
def Operation.Passing (opened : Nat) : Operation → Prop
  | .packet .. | .resolve .. | .reap _ => True
  | .receive n | .drop n => n < opened
  | .register .. | .restamp .. | .release _ => False

def Operation.takes (r : Registry) (e : Entry) : Operation → Bool
  | .reap now => !r.live now e
  | op => op.arrival?.any fun a => a.token == e.token

theorem registrations_apply_passing {r : Registry} {op : Operation} {n : Nat}
    (h : op.Passing n) : (r.apply op).2.registrations = r.registrations := by
  cases op with
  | packet data source t =>
      simp only [apply, dispatch_eq]
      split
      · rfl
      · exact registrations_resolve ..
  | resolve token ip kind t => exact registrations_resolve ..
  | reap now => simp [apply]
  | receive k => simp [apply]
  | drop k => rfl
  | register token ttl s d => exact h.elim
  | restamp token s d => exact h.elim
  | release token => exact h.elim

theorem entries_apply_passing {r : Registry} {op : Operation} {n : Nat} (h : op.Passing n) :
    (r.apply op).2.entries = r.entries.filter fun e => !op.takes r e := by
  have hresolve : ∀ a, op.arrival? = some a →
      (r.apply op).2.entries = r.entries.filter fun e => !(a.token == e.token) := by
    intro a ha
    rw [(apply_of_arrival ha r).2, entries_resolve, erase]
    refine List.filter_congr fun e _ => ?_
    rw [BEq.comm]
    rfl
  cases op with
  | packet data source t =>
      cases ha : (Operation.packet data source t).arrival? with
      | none =>
          rw [apply_of_malformed ha]
          simp [Operation.takes, ha]
      | some a => simp only [hresolve a ha, Operation.takes, ha, Option.any_some]
  | resolve token ip kind t => exact hresolve _ rfl
  | reap now => simp [apply, Operation.takes]
  | receive k => simp [apply, Operation.takes, Operation.arrival?]
  | drop k => simp [apply, drop, Operation.takes, Operation.arrival?]
  | register token ttl s d => exact h.elim
  | restamp token s d => exact h.elim
  | release token => exact h.elim

theorem sublist_after_passing {r : Registry} {ops : List Operation} {n : Nat}
    (h : ∀ op ∈ ops, op.Passing n) : (r.after ops).entries.Sublist r.entries := by
  induction ops generalizing r with
  | nil => exact List.Sublist.refl _
  | cons op rest ih =>
      have hrest := ih (r := (r.apply op).2) fun op' hop' => h op' (List.mem_cons_of_mem _ hop')
      rw [entries_apply_passing (h op List.mem_cons_self)] at hrest
      exact hrest.trans List.filter_sublist

theorem mem_after_passing {r : Registry} {ops : List Operation} {n : Nat}
    (h : ∀ op ∈ ops, op.Passing n) {e : Entry} :
    e ∈ (r.after ops).entries ↔ e ∈ r.entries ∧
      ∀ xs op ys, ops = xs ++ op :: ys → op.takes (r.after xs) e = false := by
  induction ops generalizing r with
  | nil => simp [after]
  | cons op rest ih =>
      have hfirst := h op List.mem_cons_self
      have hrest := ih (r := (r.apply op).2) fun op' hop' => h op' (List.mem_cons_of_mem _ hop')
      change e ∈ ((r.apply op).2.after rest).entries ↔ _
      rw [hrest, entries_apply_passing hfirst, List.mem_filter]
      constructor
      · rintro ⟨⟨hmem, hfree⟩, hlater⟩
        refine ⟨hmem, ?_⟩
        rintro xs op' ys hsplit
        cases xs with
        | nil =>
            cases hsplit
            simpa [after] using hfree
        | cons x xs =>
            cases hsplit
            exact hlater xs op' ys rfl
      · rintro ⟨hmem, hall⟩
        refine ⟨⟨hmem, by simpa [after] using hall [] op rest rfl⟩, ?_⟩
        rintro xs op' ys rfl
        exact hall (op :: xs) op' ys rfl

/-- The registry is what it would be without a trace, but for the probe that the trace has under
way. -/
structure Hosting (alone : Registry) (guest : Option Flight) (r : Registry) : Prop where
  home : alone.Sound
  sound : r.Sound
  since : alone.registrations ≤ r.registrations
  old : r.entries.filter (fun e => decide (e.mailbox < alone.registrations)) = alone.entries
  new : ∀ e ∈ r.entries, alone.registrations ≤ e.mailbox →
    ∃ f ∈ guest, e.token = f.token ∧ e.mailbox = f.mailbox
  boxes : ∀ n, (∀ f ∈ guest, n ≠ f.mailbox) → r.mailbox? n = alone.mailbox? n
  late : ∀ f ∈ guest, alone.registrations ≤ f.mailbox
  free : ∀ f ∈ guest, alone.contains f.token = false

theorem hosting_self {r : Registry} (h : r.Sound) : Hosting r none r := by
  refine ⟨h, h, Nat.le_refl _, ?_, ?_, fun _ _ => rfl, by simp, by simp⟩
  · rw [List.filter_eq_self]
    intro e he
    exact decide_eq_true (h.owned e he)
  · intro e he hlate
    exact absurd (h.owned e he) (Nat.not_lt_of_le hlate)

namespace Hosting

variable {alone r : Registry} {guest : Option Flight}

theorem mem_alone (h : Hosting alone guest r) {e : Entry} :
    e ∈ alone.entries ↔ e ∈ r.entries ∧ e.mailbox < alone.registrations := by
  rw [← h.old, List.mem_filter, decide_eq_true_iff]

theorem entries_of_none (h : Hosting alone none r) : r.entries = alone.entries := by
  rw [← h.old]
  symm
  rw [List.filter_eq_self]
  intro e he
  refine decide_eq_true (Nat.lt_of_not_le fun hlate => ?_)
  obtain ⟨f, hf, -⟩ := h.new e he hlate
  cases hf

theorem ne_of_mem (h : Hosting alone guest r) {e : Entry} (he : e ∈ alone.entries) :
    ∀ f ∈ guest, e.mailbox ≠ f.mailbox := by
  intro f hf
  exact Nat.ne_of_lt (Nat.lt_of_lt_of_le (h.mem_alone.mp he).2 (h.late f hf))

theorem contains_of_new (h : Hosting alone guest r) {e : Entry} (he : e ∈ r.entries)
    (hlate : alone.registrations ≤ e.mailbox) : alone.contains e.token = false := by
  obtain ⟨f, hf, htoken, -⟩ := h.new e he hlate
  rw [htoken]
  exact h.free f hf

theorem shrink (h : Hosting alone guest r) {alone' r' : Registry} (hhome : alone'.Sound)
    (hsound : r'.Sound) (hn : alone'.registrations = alone.registrations)
    (hn' : r'.registrations = r.registrations) (p : Entry → Bool)
    (he : alone'.entries = alone.entries.filter p) (he' : r'.entries = r.entries.filter p)
    (hboxes : ∀ n, (∀ f ∈ guest, n ≠ f.mailbox) → r'.mailbox? n = alone'.mailbox? n) :
    Hosting alone' guest r' := by
  refine ⟨hhome, hsound, ?_, ?_, ?_, hboxes, ?_, ?_⟩
  · rw [hn, hn']
    exact h.since
  · rw [hn, he, he', ← h.old, List.filter_filter, List.filter_filter]
    exact List.filter_congr fun e _ => Bool.and_comm _ _
  · intro e hin hlate
    rw [he'] at hin
    exact h.new e (List.mem_of_mem_filter hin) (hn ▸ hlate)
  · intro f hf
    rw [hn]
    exact h.late f hf
  · intro f hf
    rw [contains_eq_false_iff, he]
    intro e hin
    exact contains_eq_false_iff.mp (h.free f hf) e (List.mem_of_mem_filter hin)

theorem resolve (h : Hosting alone guest r) (token : Token) (ip : Net.Ip) (kind : ReplyKind)
    (t : Instant) :
    Hosting (alone.resolve token ip kind t).2 guest (r.resolve token ip kind t).2 := by
  have hhome := h.home.resolve token ip kind t
  have hsound := h.sound.resolve token ip kind t
  cases hfind : r.find? token with
  | none =>
      have hfree : r.contains token = false := by simp [contains, hfind]
      have hfree' : alone.contains token = false := by
        rw [contains_eq_false_iff] at hfree ⊢
        exact fun e he => hfree e (h.mem_alone.mp he).1
      rw [resolve_of_not_contains hfree, resolve_of_not_contains hfree']
      exact h
  | some e =>
      obtain ⟨he, rfl⟩ := find?_eq_some hfind
      have hr : (r.resolve e.token ip kind t).2 = ((r.erase e.token).deliver e.mailbox
          (.resolved e.ttl ip (t - e.sentAt) kind)).2 := by
        simp only [Registry.resolve, hfind]
      rw [hr] at hsound ⊢
      by_cases hold : e.mailbox < alone.registrations
      · have ha : (alone.resolve e.token ip kind t).2 = ((alone.erase e.token).deliver e.mailbox
            (.resolved e.ttl ip (t - e.sentAt) kind)).2 := by
          simp only [Registry.resolve, h.home.find?_of_mem (h.mem_alone.mpr ⟨he, hold⟩)]
        rw [ha] at hhome ⊢
        refine h.shrink hhome hsound (by simp [erase]) (by simp [erase])
          (fun x => x.token != e.token) (by simp [erase]) (by simp [erase]) ?_
        intro n hn
        simp only [mailbox?_deliver, mailbox?_erase, h.boxes n hn]
      · have hlate := Nat.le_of_not_lt hold
        have hfree := h.contains_of_new he hlate
        rw [resolve_of_not_contains hfree]
        refine h.shrink h.home hsound rfl (by simp [erase])
          (fun x => x.token != e.token) ?_ (by simp [erase]) ?_
        · symm
          rw [List.filter_eq_self]
          intro x hx
          simpa using contains_eq_false_iff.mp hfree x hx
        · intro n hn
          obtain ⟨f, hf, -, hmailbox⟩ := h.new e he hlate
          rw [mailbox?_deliver, if_neg (hmailbox ▸ hn f hf), mailbox?_erase, h.boxes n hn]

theorem live (h : Hosting alone guest r) {e : Entry} (he : e ∈ alone.entries) (now : Instant) :
    alone.live now e = r.live now e := by
  rw [Registry.live, Registry.live, h.boxes _ (h.ne_of_mem he)]

theorem reap (h : Hosting alone guest r) (now : Instant) :
    Hosting (alone.reap now).2 guest (r.reap now).2 := by
  refine h.shrink (h.home.reap now) (h.sound.reap now) (by simp) (by simp) (r.live now) ?_
    (by simp) ?_
  · rw [entries_reap]
    exact List.filter_congr fun e he => h.live he now
  · intro n hn
    have hsame : n ∈ (r.entries.filter fun e => !r.live now e).map Entry.mailbox ↔
        n ∈ (alone.entries.filter fun e => !alone.live now e).map Entry.mailbox := by
      simp only [List.mem_map, List.mem_filter]
      constructor
      · rintro ⟨e, ⟨he, hdead⟩, rfl⟩
        have hold : e ∈ alone.entries := by
          refine h.mem_alone.mpr ⟨he, Nat.lt_of_not_le fun hlate => ?_⟩
          obtain ⟨f, hf, -, hmailbox⟩ := h.new e he hlate
          exact hn f hf hmailbox
        exact ⟨e, ⟨hold, by rwa [h.live hold]⟩, rfl⟩
      · rintro ⟨e, ⟨he, hdead⟩, rfl⟩
        exact ⟨e, ⟨(h.mem_alone.mp he).1, by rwa [← h.live he]⟩, rfl⟩
    rw [mailbox?_reap, mailbox?_reap, h.boxes n hn]
    simp only [hsame]

theorem apply (h : Hosting alone guest r) {op : Operation}
    (hop : op.Passing alone.registrations) :
    Hosting (alone.apply op).2 guest (r.apply op).2 := by
  have hboth : ∀ r : Registry, r.entries = r.entries.filter fun _ => true := fun r => by simp
  cases op with
  | packet data source t =>
      simp only [Registry.apply, dispatch_eq]
      cases Packet.Reply.ofDatagram data source with
      | error e => exact h
      | ok reply => exact h.resolve ..
  | resolve token ip kind t => exact h.resolve token ip kind t
  | reap now => exact h.reap now
  | receive k =>
      refine h.shrink (h.home.receive k) (h.sound.receive k) (by simp [Registry.apply])
        (by simp [Registry.apply]) (fun _ => true) (by simp [Registry.apply])
        (by simp [Registry.apply]) ?_
      intro n hn
      simp only [Registry.apply, mailbox?_receive, h.boxes n hn]
  | drop k =>
      refine h.shrink (h.home.drop k) (h.sound.drop k) rfl rfl (fun _ => true) (hboth _)
        (hboth _) ?_
      intro n hn
      simp only [Registry.apply, mailbox?_drop, h.boxes n hn]
  | register token ttl s d => exact hop.elim
  | restamp token s d => exact hop.elim
  | release token => exact hop.elim

theorem after (h : Hosting alone guest r) {ops : List Operation}
    (hops : ∀ op ∈ ops, op.Passing alone.registrations) :
    Hosting (alone.after ops) guest (r.after ops) ∧
      (alone.after ops).registrations = alone.registrations := by
  induction ops generalizing alone r with
  | nil => exact ⟨h, rfl⟩
  | cons op rest ih =>
      have hfirst := hops op List.mem_cons_self
      have hn : (alone.apply op).2.registrations = alone.registrations :=
        registrations_apply_passing hfirst
      obtain ⟨hosting, hrest⟩ := ih (h.apply hfirst) fun op' hop' => by
        rw [hn]
        exact hops op' (List.mem_cons_of_mem _ hop')
      exact ⟨hosting, hrest.trans hn⟩

theorem enter (h : Hosting alone none r) {f : Flight} {r' : Registry}
    (hr : r.register f.token f.ttl f.sentAt f.deadline = some (f.mailbox, r')) :
    Hosting alone (some f) r' := by
  have hsound := h.sound.register hr
  have hbox := h.sound.mailbox?_register hr
  obtain ⟨hfree, hmailbox, rfl⟩ := register_eq_some_iff.mp hr
  have hlate : alone.registrations ≤ f.mailbox := hmailbox ▸ h.since
  refine ⟨h.home, hsound, Nat.le_succ_of_le hlate, ?_, ?_, ?_, ?_, ?_⟩
  · simp [List.filter_append, h.old, hlate]
  · intro e he hnew
    rcases List.mem_append.mp he with he | he
    · obtain ⟨f', hf', -⟩ := h.new e he hnew
      cases hf'
    · rw [List.mem_singleton.mp he]
      exact ⟨f, rfl, rfl, rfl⟩
  · intro n hn
    rw [hbox, if_neg (hn f rfl)]
    exact h.boxes n fun f' hf' => by cases hf'
  · rintro f' hf'
    cases hf'
    exact hlate
  · rintro f' hf'
    cases hf'
    rw [contains_eq_false_iff] at hfree ⊢
    exact fun e he => hfree e (h.mem_alone.mp he).1

theorem read {f : Flight} (h : Hosting alone (some f) r) :
    Hosting alone (some f) (r.receive f.mailbox).2 := by
  refine h.shrink h.home (h.sound.receive _) rfl (by simp) (fun _ => true) (by simp) (by simp) ?_
  intro n hn
  rw [mailbox?_receive, if_neg (hn f rfl), h.boxes n hn]

theorem leave {f : Flight} (h : Hosting alone (some f) r) :
    Hosting alone none ((r.release f.token).2.drop f.mailbox) := by
  have hlate := h.late f rfl
  have hkept : (r.release f.token).2.entries = r.entries.filter (fun e => e.token != f.token) ∧
      (r.release f.token).2.registrations = r.registrations ∧
      ∀ n, n ≠ f.mailbox → (r.release f.token).2.mailbox? n = r.mailbox? n := by
    have hfree := contains_eq_false_iff.mp (h.free f rfl)
    refine ⟨entries_release r f.token, ?_⟩
    unfold release
    split
    · exact ⟨rfl, fun _ _ => rfl⟩
    · rename_i e hfind
      obtain ⟨he, htoken⟩ := find?_eq_some hfind
      have hnew : alone.registrations ≤ e.mailbox := by
        refine Nat.le_of_not_lt fun hold => ?_
        exact hfree e (h.mem_alone.mpr ⟨he, hold⟩) htoken
      obtain ⟨f', hf', -, hmailbox⟩ := h.new e he hnew
      cases hf'
      refine ⟨by simp [erase], ?_⟩
      intro n hn
      rw [hmailbox, mailbox?_close, if_neg hn, mailbox?_erase]
  obtain ⟨hentries, hn, hboxes⟩ := hkept
  have hdropped : ((r.release f.token).2.drop f.mailbox).entries =
      r.entries.filter fun e => e.token != f.token := hentries
  refine ⟨h.home, (h.sound.release _).drop _, ?_, ?_, ?_, ?_, by simp, by simp⟩
  · exact Nat.le_trans h.since (Nat.le_of_eq hn.symm)
  · rw [hdropped, ← h.old, List.filter_filter]
    refine List.filter_congr fun e he => ?_
    by_cases hold : e.mailbox < alone.registrations
    · have hfree := contains_eq_false_iff.mp (h.free f rfl) e (h.mem_alone.mpr ⟨he, hold⟩)
      simp [hold, hfree]
    · simp [hold]
  · intro e he hnew
    rw [hdropped, List.mem_filter] at he
    obtain ⟨f', hf', htoken, -⟩ := h.new e he.1 hnew
    cases hf'
    simp [htoken] at he
  · intro n hn
    rw [mailbox?_drop]
    split
    · rename_i hsame
      exact (h.home.unopened n (hsame ▸ hlate)).symm
    · rename_i hother
      rw [hboxes n hother]
      refine h.boxes n fun f' hf' => ?_
      cases hf'
      exact hother

end Hosting

end InbandTrace.Registry
