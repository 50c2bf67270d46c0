import InbandTrace.Proofs.Registry.Tenure
import InbandTrace.Sender.Basic

namespace InbandTrace.Registry

/-- Others have no probes under a flow: they register none. -/
def Operation.Sparing (flow : Flow) : Operation → Prop
  | .register token _ _ _ => token.flow ≠ flow
  | _ => True

def Stamped (token : Token) (sentAt : Instant) (log : List Operation) (at_ : Instant) : Prop :=
  at_ = sentAt ∨ ∃ deadline, .restamp token at_ deadline ∈ log

def Earned (token : Token) (sentAt : Instant) (log : List Operation) (hop : Hop) : Prop :=
  ∃ op ∈ log, ∃ a at_, op.arrival? = some a ∧ a.token = token ∧ Stamped token sentAt log at_ ∧
    hop = a.hop hop.ttl at_

section

variable {token : Token} {sentAt : Instant} {log log' : List Operation}

theorem Stamped.mono {at_ : Instant} (h : Stamped token sentAt log at_) (hsub : log ⊆ log') :
    Stamped token sentAt log' at_ :=
  h.imp_right fun ⟨deadline, hin⟩ => ⟨deadline, hsub hin⟩

theorem Earned.mono {hop : Hop} (h : Earned token sentAt log hop) (hsub : log ⊆ log') :
    Earned token sentAt log' hop := by
  obtain ⟨op, hin, a, at_, ha, htoken, hstamp, hhop⟩ := h
  exact ⟨op, hsub hin, a, at_, ha, htoken, hstamp.mono hsub, hhop⟩

end

/-- The only entry under a flow, if there is any, is that of the probe under way; its mailbox holds
no hop but that of a reply to this probe. -/
structure Sole (flow : Flow) (guest : Option Flight) (log : List Operation) (r : Registry) :
    Prop where
  sound : r.Sound
  opened : ∀ f ∈ guest, f.mailbox < r.registrations
  owned : ∀ e ∈ r.entries, e.token.flow = flow → ∃ f ∈ guest,
    e.token = f.token ∧ e.ttl = f.ttl ∧ e.mailbox = f.mailbox ∧
      Stamped f.token f.sentAt log e.sentAt
  owner : ∀ f ∈ guest, ∀ e ∈ r.entries, e.mailbox = f.mailbox → e.token.flow = flow
  earned : ∀ f ∈ guest, ∀ hop, r.mailbox? f.mailbox = some (.holding hop) →
    hop.ttl = f.ttl ∧ Earned f.token f.sentAt log hop

theorem sole_of_free {r : Registry} {flow : Flow} (hs : r.Sound)
    (h : ∀ e ∈ r.entries, e.token.flow ≠ flow) (log : List Operation) : r.Sole flow none log :=
  ⟨hs, by simp, fun e he hflow => absurd hflow (h e he), by simp, by simp⟩

namespace Sole

variable {r : Registry} {flow : Flow} {guest : Option Flight} {log : List Operation}

theorem mono (h : r.Sole flow guest log) {log' : List Operation} (hsub : log ⊆ log') :
    r.Sole flow guest log' := by
  refine ⟨h.sound, h.opened, ?_, h.owner, ?_⟩
  · intro e he hflow
    obtain ⟨f, hf, htoken, httl, hmailbox, hstamp⟩ := h.owned e he hflow
    exact ⟨f, hf, htoken, httl, hmailbox, hstamp.mono hsub⟩
  · exact fun f hf hop hbox => (h.earned f hf hop hbox).imp_right fun he => he.mono hsub

theorem shrink (h : r.Sole flow guest log) {r' : Registry} (hs : r'.Sound)
    (hn : r'.registrations = r.registrations) (he : ∀ e ∈ r'.entries, e ∈ r.entries)
    (hbox : ∀ f ∈ guest, ∀ hop, r'.mailbox? f.mailbox = some (.holding hop) →
      hop.ttl = f.ttl ∧ Earned f.token f.sentAt log hop) : r'.Sole flow guest log :=
  ⟨hs, fun f hf => hn ▸ h.opened f hf, fun e hin => h.owned e (he e hin),
    fun f hf e hin => h.owner f hf e (he e hin), hbox⟩

theorem register (h : r.Sole flow guest log) {token : Token} (ht : token.flow ≠ flow)
    {ttl : UInt8} {s d : Instant} {n : Nat} {r' : Registry}
    (hr : r.register token ttl s d = some (n, r')) : r'.Sole flow guest log := by
  have hbox := h.sound.mailbox?_register hr
  have hsound := h.sound.register hr
  obtain ⟨-, rfl, rfl⟩ := register_eq_some_iff.mp hr
  refine ⟨hsound, fun f hf => Nat.lt_succ_of_lt (h.opened f hf), ?_, ?_, ?_⟩
  · intro e he hflow
    rcases List.mem_append.mp he with he | he
    · exact h.owned e he hflow
    · rw [List.mem_singleton.mp he] at hflow
      exact absurd hflow ht
  · intro f hf e he hmailbox
    rcases List.mem_append.mp he with he | he
    · exact h.owner f hf e he hmailbox
    · rw [List.mem_singleton.mp he] at hmailbox
      exact absurd (h.opened f hf) (Nat.not_lt_of_le (Nat.le_of_eq hmailbox))
  · intro f hf hop hholding
    rw [hbox, if_neg (Nat.ne_of_lt (h.opened f hf))] at hholding
    exact h.earned f hf hop hholding

theorem restamp (h : r.Sole flow guest log) {token : Token} {s d : Instant}
    (hin : .restamp token s d ∈ log) : (r.restamp token s d).2.Sole flow guest log := by
  have hback : ∀ e ∈ (r.restamp token s d).2.entries, ∃ e' ∈ r.entries,
      e.token = e'.token ∧ e.ttl = e'.ttl ∧ e.mailbox = e'.mailbox ∧
        (e.sentAt = e'.sentAt ∨ e.token = token ∧ e.sentAt = s) := by
    intro e he
    obtain ⟨e', he', rfl⟩ := List.mem_map.mp he
    refine ⟨e', he', ?_⟩
    split
    · rename_i hsame
      exact ⟨rfl, rfl, rfl, .inr ⟨hsame, rfl⟩⟩
    · exact ⟨rfl, rfl, rfl, .inl rfl⟩
  refine ⟨h.sound.restamp .., h.opened, ?_, ?_, h.earned⟩
  · intro e he hflow
    obtain ⟨e', he', htoken, httl, hmailbox, hstamp⟩ := hback e he
    obtain ⟨f, hf, htoken', httl', hmailbox', hstamp'⟩ := h.owned e' he' (htoken ▸ hflow)
    refine ⟨f, hf, htoken.trans htoken', httl.trans httl', hmailbox.trans hmailbox', ?_⟩
    rcases hstamp with hsame | ⟨hnamed, rfl⟩
    · rw [hsame]
      exact hstamp'
    · rw [← htoken', ← htoken, hnamed]
      exact .inr ⟨d, hin⟩
  · intro f hf e he hmailbox
    obtain ⟨e', he', htoken, -, hmailbox', -⟩ := hback e he
    rw [htoken]
    exact h.owner f hf e' he' (hmailbox' ▸ hmailbox)

theorem resolve (h : r.Sole flow guest log) {op : Operation} {a : Arrival} (hin : op ∈ log)
    (ha : op.arrival? = some a) :
    (r.resolve a.token a.responder a.kind a.receivedAt).2.Sole flow guest log := by
  refine h.shrink (h.sound.resolve ..) (registrations_resolve ..) ?_ ?_
  · intro e he
    rw [entries_resolve] at he
    exact List.mem_of_mem_filter he
  · intro f hf hop hbox
    rcases holding_of_resolve hbox with hold | ⟨e, he, htoken, hmailbox, rfl⟩
    · exact h.earned f hf hop hold
    · obtain ⟨f', hf', htoken', httl, -, hstamp⟩ := h.owned e he (h.owner f hf e he hmailbox)
      obtain rfl : f = f' := Option.mem_unique hf hf'
      exact ⟨httl, op, hin, a, e.sentAt, ha, htoken ▸ htoken', hstamp, rfl⟩

theorem apply (h : r.Sole flow guest log) {op : Operation} (hop : op.Sparing flow) :
    (r.apply op).2.Sole flow guest (log ++ [op]) := by
  have hin : op ∈ log ++ [op] := List.mem_append_right _ (List.mem_singleton_self op)
  replace h := h.mono (List.subset_append_left log [op])
  cases op with
  | register token ttl s d =>
      simp only [Registry.apply]
      split
      · exact h
      · rename_i hr
        exact h.register hop hr
  | resolve token ip kind t => exact h.resolve (a := ⟨token, ip, kind, t⟩) hin rfl
  | restamp token s d => exact h.restamp hin
  | release token =>
      refine h.shrink (h.sound.release token) (registrations_release ..) ?_
        fun f hf hop hbox => h.earned f hf hop (holding_of_release hbox)
      intro e he
      simp only [Registry.apply, entries_release] at he
      exact List.mem_of_mem_filter he
  | packet data source t =>
      cases ha : (Operation.packet data source t).arrival? with
      | none =>
          rw [apply_of_malformed ha]
          exact h
      | some a =>
          rw [(apply_of_arrival ha r).2]
          exact h.resolve hin ha
  | reap now =>
      refine h.shrink (h.sound.reap now) (by simp [Registry.apply]) ?_
        fun f hf hop hbox => h.earned f hf hop (holding_of_reap hbox)
      intro e he
      simp only [Registry.apply, entries_reap] at he
      exact List.mem_of_mem_filter he
  | receive k =>
      refine h.shrink (h.sound.receive k) (by simp [Registry.apply]) ?_
        fun f hf hop hbox => h.earned f hf hop (holding_of_receive hbox)
      intro e he
      simpa [Registry.apply] using he
  | drop k =>
      exact h.shrink (h.sound.drop k) rfl (fun e he => he)
        fun f hf hop hbox => h.earned f hf hop (holding_of_drop hbox)

theorem after (h : r.Sole flow guest log) {ops : List Operation}
    (hops : ∀ op ∈ ops, op.Sparing flow) : (r.after ops).Sole flow guest (log ++ ops) := by
  induction ops generalizing r log with
  | nil =>
      rw [List.append_nil]
      exact h
  | cons op rest ih =>
      have hrest := ih (h.apply (hops op List.mem_cons_self)) fun op' hop' =>
        hops op' (List.mem_cons_of_mem _ hop')
      rwa [List.append_assoc, List.singleton_append] at hrest

theorem enter (h : r.Sole flow none log) {f : Flight} (hf : f.token.flow = flow) {r' : Registry}
    (hr : r.register f.token f.ttl f.sentAt f.deadline = some (f.mailbox, r')) :
    r'.Sole flow (some f) log := by
  have hbox := h.sound.mailbox?_register hr
  have hsound := h.sound.register hr
  obtain ⟨-, hmailbox, rfl⟩ := register_eq_some_iff.mp hr
  refine ⟨hsound, ?_, ?_, ?_, ?_⟩
  · rintro f' hf'
    cases hf'
    exact Nat.lt_succ_self _
  · intro e he hflow
    rcases List.mem_append.mp he with he | he
    · obtain ⟨f', hf', -⟩ := h.owned e he hflow
      cases hf'
    · rw [List.mem_singleton.mp he]
      exact ⟨f, rfl, rfl, rfl, rfl, .inl rfl⟩
  · rintro f' hf' e he hsame
    cases hf'
    rcases List.mem_append.mp he with he | he
    · exact absurd (hsame.trans hmailbox) (Nat.ne_of_lt (h.sound.owned e he))
    · rw [List.mem_singleton.mp he]
      exact hf
  · rintro f' hf' hop hholding
    cases hf'
    rw [hbox, if_pos rfl] at hholding
    cases hholding

theorem read {f : Flight} (h : r.Sole flow (some f) log) :
    (r.receive f.mailbox).2.Sole flow (some f) log := by
  refine h.shrink (h.sound.receive _) (by simp) (by simp) ?_
  rintro f' hf' hop hbox
  cases hf'
  rw [mailbox?_receive, if_pos rfl] at hbox
  exact absurd hbox taken_ne_holding

theorem leave {f : Flight} (h : r.Sole flow (some f) log) :
    ((r.release f.token).2.drop f.mailbox).Sole flow none log := by
  refine sole_of_free ((h.sound.release _).drop _) ?_ log
  intro e he hflow
  have hleft : e ∈ (r.release f.token).2.entries := he
  rw [entries_release, erase, List.mem_filter] at hleft
  obtain ⟨f', hf', htoken, -⟩ := h.owned e hleft.1 hflow
  cases hf'
  simp [htoken] at hleft

theorem not_contains (h : r.Sole flow none log) {token : Token} (ht : token.flow = flow) :
    r.contains token = false := by
  rw [contains_eq_false_iff]
  rintro e he rfl
  obtain ⟨f, hf, -⟩ := h.owned e he ht
  cases hf

theorem dispatch (h : r.Sole flow guest log) {data : Packet.Bytes} {source : Net.Ip}
    {reply : Packet.Reply} (hparse : Packet.Reply.ofDatagram data source = .ok reply)
    (hflow : reply.token.flow = flow) (at_ : Instant) :
    let answer := r.dispatch data source at_
    (answer.1 = .unmatched reply.token ∧ ∀ n, answer.2.mailbox? n = r.mailbox? n) ∨
      ∃ f ∈ guest, reply.token = f.token ∧ answer.1 = .delivered reply.token ∧
        (∃ stamp, Stamped f.token f.sentAt log stamp ∧ answer.2.mailbox? f.mailbox = some
          (.holding (.resolved f.ttl reply.responder (at_ - stamp) reply.kind))) ∧
        ∀ n, n ≠ f.mailbox → answer.2.mailbox? n = r.mailbox? n := by
  intro answer
  have hanswer : answer = (if (r.resolve reply.token reply.responder reply.kind at_).1
      then .delivered reply.token else .unmatched reply.token,
      (r.resolve reply.token reply.responder reply.kind at_).2) := by
    simp only [answer, Registry.dispatch, hparse]
  cases hfind : r.find? reply.token with
  | none =>
      rw [resolve_of_not_contains (by simp [contains, hfind])] at hanswer
      rw [hanswer]
      exact .inl ⟨rfl, fun n => rfl⟩
  | some e =>
      obtain ⟨he, htoken⟩ := find?_eq_some hfind
      obtain ⟨f, hf, htoken', httl, hmailbox, hstamp⟩ := h.owned e he (htoken ▸ hflow)
      cases hbox : r.mailbox? e.mailbox with
      | none =>
          have hresolve : r.resolve reply.token reply.responder reply.kind at_ =
              (false, r.erase reply.token) := by
            simp only [Registry.resolve, hfind, deliver, mailbox?_erase, hbox]
          rw [hresolve] at hanswer
          rw [hanswer]
          exact .inl ⟨rfl, fun n => rfl⟩
      | some m =>
          obtain rfl := h.sound.waits e he m hbox
          have hresolve := h.sound.resolve_of_waiting he hbox reply.responder reply.kind at_
          rw [htoken] at hresolve
          rw [hresolve, httl, hmailbox] at hanswer
          rw [hmailbox] at hbox
          rw [hanswer]
          refine .inr ⟨f, hf, htoken ▸ htoken', rfl, ⟨e.sentAt, hstamp, ?_⟩, ?_⟩
          · simp only [mailbox?_setMailbox, if_true, mailbox?_erase, hbox, Option.map_some]
          · intro n hn
            simp only [mailbox?_setMailbox, if_neg hn, mailbox?_erase]

end Sole

end InbandTrace.Registry
