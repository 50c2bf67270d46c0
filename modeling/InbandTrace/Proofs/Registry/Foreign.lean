import InbandTrace.Proofs.Registry.Assigned

namespace InbandTrace.Registry

/-- What others do to the registry: nothing that concerns a flow, and nothing to mailboxes that were
opened later than theirs. -/
def Operation.Foreign (flow : Flow) (opened : Nat) : Operation → Prop
  | .register token _ _ _ | .resolve token _ _ _ | .restamp token _ _ | .release token =>
      token.flow ≠ flow
  | .packet data source _ =>
      ∀ reply, Packet.Reply.ofDatagram data source = .ok reply → reply.token.flow ≠ flow
  | .receive n | .drop n => n < opened
  | .reap _ => False

def under (r : Registry) (flow : Flow) : List Entry :=
  r.entries.filter fun e => e.token.flow == flow

theorem mem_under {r : Registry} {flow : Flow} {e : Entry} :
    e ∈ r.under flow ↔ e ∈ r.entries ∧ e.token.flow = flow := by
  simp [under]

theorem contains_eq_false_of_under {r : Registry} {token : Token}
    (h : ∀ e ∈ r.under token.flow, e.token ≠ token) : r.contains token = false := by
  rw [contains_eq_false_iff]
  intro e he htoken
  exact h e (mem_under.mpr ⟨he, by rw [htoken]⟩) htoken

theorem under_erase (r : Registry) (token : Token) (flow : Flow) :
    (r.erase token).under flow = (r.under flow).filter fun e => e.token != token := by
  simp only [under, erase, List.filter_filter]
  exact List.filter_congr fun e _ => Bool.and_comm _ _

theorem under_erase_foreign {r : Registry} {token : Token} {flow : Flow} (h : token.flow ≠ flow) :
    (r.erase token).under flow = r.under flow := by
  rw [under_erase, List.filter_eq_self]
  intro e he
  have hflow := (mem_under.mp he).2
  rw [bne_iff_ne]
  rintro rfl
  exact h hflow

theorem under_resolve_foreign {r : Registry} {token : Token} {flow : Flow} (h : token.flow ≠ flow)
    (ip : Net.Ip) (kind : ReplyKind) (t : Instant) :
    (r.resolve token ip kind t).2.under flow = r.under flow := by
  rw [under, entries_resolve]
  exact under_erase_foreign h

theorem under_restamp_foreign {r : Registry} {token : Token} {flow : Flow} (h : token.flow ≠ flow)
    (s d : Instant) : (r.restamp token s d).2.under flow = r.under flow := by
  simp only [under, restamp]
  induction r.entries with
  | nil => rfl
  | cons e rest ih =>
      by_cases he : e.token = token
      · have hother : (e.token.flow == flow) = false := by
          rw [he]
          exact beq_eq_false_iff_ne.mpr h
        rw [List.map_cons, if_pos he, List.filter_cons_of_neg (by simpa using hother),
          List.filter_cons_of_neg (by simpa using hother), ih]
      · rw [List.map_cons, if_neg he, List.filter_cons, List.filter_cons, ih]

theorem under_release (r : Registry) (token : Token) (flow : Flow) :
    (r.release token).2.under flow = (r.under flow).filter fun e => e.token != token := by
  rw [under, entries_release]
  exact under_erase r token flow

theorem under_apply_foreign {r : Registry} {op : Operation} {flow : Flow} {n : Nat}
    (h : op.Foreign flow n) : (r.apply op).2.under flow = r.under flow := by
  cases op with
  | register token ttl s d =>
      simp only [apply]
      split
      · rfl
      · rename_i k r' hr
        obtain ⟨-, rfl, rfl⟩ := register_eq_some_iff.mp hr
        have hother : (token.flow == flow) = false := beq_eq_false_iff_ne.mpr h
        simp [under, List.filter_append, hother]
  | resolve token ip kind t => exact under_resolve_foreign h ip kind t
  | restamp token s d => exact under_restamp_foreign h s d
  | release token =>
      refine (under_release r token flow).trans ?_
      rw [List.filter_eq_self]
      intro e he
      have hflow := (mem_under.mp he).2
      rw [bne_iff_ne]
      rintro rfl
      exact h hflow
  | packet data source t =>
      simp only [apply, dispatch_eq]
      cases hparse : Packet.Reply.ofDatagram data source with
      | error e => rfl
      | ok reply => exact under_resolve_foreign (h reply hparse) ..
  | reap now => exact h.elim
  | receive k => simp [apply, under]
  | drop k => rfl

theorem registrations_apply_le (r : Registry) (op : Operation) :
    r.registrations ≤ (r.apply op).2.registrations := by
  cases op with
  | register token ttl s d =>
      simp only [apply]
      split
      · exact Nat.le_refl _
      · rename_i k r' hr
        obtain ⟨-, rfl, rfl⟩ := register_eq_some_iff.mp hr
        exact Nat.le_succ _
  | resolve token ip kind t => exact Nat.le_of_eq (registrations_resolve ..).symm
  | restamp token s d => exact Nat.le_refl _
  | release token =>
      simp only [apply, release]
      split
      · exact Nat.le_refl _
      · simp [erase]
  | packet data source t =>
      simp only [apply, dispatch_eq]
      split
      · exact Nat.le_refl _
      · exact Nat.le_of_eq (registrations_resolve ..).symm
  | reap now => simp [apply]
  | receive k => simp [apply]
  | drop k => exact Nat.le_refl _

theorem mailbox?_resolve_foreign {r : Registry} {token : Token} {flow : Flow} {n : Nat}
    (h : token.flow ≠ flow) (howned : ∀ e ∈ r.entries, e.mailbox = n → e.token.flow = flow)
    (ip : Net.Ip) (kind : ReplyKind) (t : Instant) :
    (r.resolve token ip kind t).2.mailbox? n = r.mailbox? n := by
  unfold resolve
  split
  · rfl
  · rename_i e hfind
    obtain ⟨he, rfl⟩ := find?_eq_some hfind
    have hne : n ≠ e.mailbox := by
      rintro rfl
      exact h (howned e he rfl)
    rw [mailbox?_deliver, if_neg hne, mailbox?_erase]

theorem mailbox?_apply_foreign {r : Registry} {op : Operation} {flow : Flow} {n opened : Nat}
    (h : op.Foreign flow opened) (howned : ∀ e ∈ r.entries, e.mailbox = n → e.token.flow = flow)
    (hlate : opened ≤ n) (hopen : (r.mailbox? n).isSome) :
    (r.apply op).2.mailbox? n = r.mailbox? n := by
  cases op with
  | register token ttl s d =>
      simp only [apply]
      split
      · rfl
      · rename_i k r' hr
        obtain ⟨-, rfl, rfl⟩ := register_eq_some_iff.mp hr
        obtain ⟨m, hm⟩ := Option.isSome_iff_exists.mp hopen
        simp only [mailbox?] at hm ⊢
        simp [List.lookup_append, hm]
  | resolve token ip kind t => exact mailbox?_resolve_foreign h howned ip kind t
  | restamp token s d => rfl
  | release token =>
      simp only [apply, release]
      split
      · rfl
      · rename_i e hfind
        obtain ⟨he, rfl⟩ := find?_eq_some hfind
        have hne : n ≠ e.mailbox := by
          rintro rfl
          exact h (howned e he rfl)
        rw [mailbox?_close, if_neg hne, mailbox?_erase]
  | packet data source t =>
      simp only [apply, dispatch_eq]
      cases hparse : Packet.Reply.ofDatagram data source with
      | error e => rfl
      | ok reply => exact mailbox?_resolve_foreign (h reply hparse) howned ..
  | reap now => exact h.elim
  | receive k =>
      have hne : n ≠ k := fun hsame => Nat.not_le_of_lt h (hsame ▸ hlate)
      simp only [apply, mailbox?_receive, if_neg hne]
  | drop k =>
      have hne : n ≠ k := fun hsame => Nat.not_le_of_lt h (hsame ▸ hlate)
      simp only [apply, mailbox?_drop, if_neg hne]

theorem Operation.keeps_flow (op : Operation) (flow : Flow) :
    op.Keeps fun e => e.token.flow = flow := by
  cases op with
  | restamp token s d =>
      intro e _ hq
      exact hq
  | _ => trivial

theorem dispatch_of_not_contains {r : Registry} {data : Packet.Bytes} {source : Net.Ip}
    {reply : Packet.Reply} (hparse : Packet.Reply.ofDatagram data source = .ok reply)
    (h : r.contains reply.token = false) (t : Instant) : (r.dispatch data source t).2 = r := by
  rw [dispatch_eq, hparse]
  exact congrArg Prod.snd (resolve_of_not_contains h)

structure Clear (r : Registry) (flow : Flow) (opened : Nat) : Prop where
  sound : r.Sound
  since : opened ≤ r.registrations
  under : r.under flow = []

structure Watched (r : Registry) (flow : Flow) (opened n : Nat) (entries : List Entry)
    (m : Mailbox) : Prop where
  sound : r.Sound
  since : opened ≤ n
  under : r.under flow = entries
  box : r.mailbox? n = some m
  assigned : r.Assigned n fun e => e.token.flow = flow

namespace Clear

variable {r : Registry} {flow : Flow} {opened : Nat}

theorem foreign (h : r.Clear flow opened) {op : Operation} (hop : op.Foreign flow opened) :
    (r.apply op).2.Clear flow opened :=
  ⟨h.sound.apply op, Nat.le_trans h.since (r.registrations_apply_le op),
    (under_apply_foreign hop).trans h.under⟩

theorem not_contains (h : r.Clear flow opened) {token : Token} (ht : token.flow = flow) :
    r.contains token = false := by
  refine contains_eq_false_of_under ?_
  rw [ht, h.under]
  intro e he
  cases he

theorem register (h : r.Clear flow opened) {token : Token} (ht : token.flow = flow) (ttl : UInt8)
    (s d : Instant) :
    ∃ n r', r.register token ttl s d = some (n, r') ∧
      r'.Watched flow opened n [⟨token, ttl, s, d, n⟩] .waiting := by
  have hfree := h.not_contains ht
  have hreg : r.register token ttl s d = some (r.registrations, _) :=
    register_eq_some_iff.mpr ⟨hfree, rfl, rfl⟩
  refine ⟨_, _, hreg, h.sound.register hreg, h.since, ?_, ?_, h.sound.assigned hreg ht⟩
  · have hunder := h.under
    simp only [Registry.under] at hunder ⊢
    simp [List.filter_append, hunder, ht]
  · have hnone := h.sound.unopened r.registrations (Nat.le_refl _)
    simp only [mailbox?] at hnone ⊢
    simp [List.lookup_append, hnone]

end Clear

namespace Watched

variable {r : Registry} {flow : Flow} {opened n : Nat} {entries : List Entry} {m : Mailbox}

theorem foreign (h : r.Watched flow opened n entries m) {op : Operation}
    (hop : op.Foreign flow opened) : (r.apply op).2.Watched flow opened n entries m := by
  have hbox : (r.mailbox? n).isSome := by
    rw [h.box]
    rfl
  refine ⟨h.sound.apply op, h.since, (under_apply_foreign hop).trans h.under, ?_,
    h.assigned.apply (op.keeps_flow flow)⟩
  rw [mailbox?_apply_foreign hop h.assigned.entry h.since hbox]
  exact h.box

theorem contains_of_under (h : r.Watched flow opened n entries m) {token : Token}
    (ht : token.flow = flow) (hnot : ∀ e ∈ entries, e.token ≠ token) :
    r.contains token = false := by
  refine contains_eq_false_of_under ?_
  rw [ht, h.under]
  exact hnot

theorem answered {e : Entry} (h : r.Watched flow opened e.mailbox [e] .waiting)
    {data : Packet.Bytes} {source : Net.Ip} {reply : Packet.Reply}
    (hparse : Packet.Reply.ofDatagram data source = .ok reply) (htoken : reply.token = e.token)
    (t : Instant) :
    (r.dispatch data source t).2.Watched flow opened e.mailbox []
      (.holding (.resolved e.ttl reply.responder (t - e.sentAt) reply.kind)) := by
  have he : e ∈ r.entries ∧ e.token.flow = flow := by
    rw [← mem_under, h.under]
    exact List.mem_singleton_self e
  have hdispatch : (r.dispatch data source t).2 = (r.erase e.token).setMailbox e.mailbox
      (.holding (.resolved e.ttl reply.responder (t - e.sentAt) reply.kind)) := by
    rw [dispatch_eq, hparse]
    simp only [htoken, h.sound.resolve_of_waiting he.1 h.box]
  have hsound := h.sound.dispatch data source t
  have hassigned : (r.dispatch data source t).2.Assigned e.mailbox fun e => e.token.flow = flow :=
    h.assigned.apply (Operation.keeps_flow (.packet data source t) flow)
  rw [hdispatch] at hsound hassigned ⊢
  refine ⟨hsound, h.since, ?_, ?_, hassigned⟩
  · change (r.erase e.token).under flow = []
    rw [under_erase, h.under]
    simp
  · rw [mailbox?_setMailbox, if_pos rfl, mailbox?_erase, h.box]
    rfl

theorem restamped {e : Entry} (h : r.Watched flow opened n [e] m) (s d : Instant) :
    (r.restamp e.token s d).2.Watched flow opened n [{ e with sentAt := s, deadline := d }] m := by
  have hmap : ∀ entries : List Entry,
      ((entries.map fun x =>
        if x.token = e.token then { x with sentAt := s, deadline := d } else x).filter
          fun x => x.token.flow == flow) =
      (entries.filter fun x => x.token.flow == flow).map fun x =>
        if x.token = e.token then { x with sentAt := s, deadline := d } else x := by
    intro entries
    rw [List.filter_map]
    congr 1
    refine List.filter_congr fun x _ => ?_
    simp only [Function.comp_apply]
    split <;> rfl
  refine ⟨h.sound.restamp .., h.since, ?_, h.box,
    h.assigned.restamp (Operation.keeps_flow (.restamp e.token s d) flow)⟩
  have hunder := h.under
  simp only [Registry.under, restamp] at hunder ⊢
  rw [hmap, hunder]
  simp

theorem received {hop : Hop} (h : r.Watched flow opened n [] (.holding hop)) :
    r.receive n = (.hop hop, (r.receive n).2) ∧
      (r.receive n).2.Watched flow opened n [] .closed := by
  refine ⟨?_, h.sound.receive n, h.since, ?_, ?_, h.assigned.receive n⟩
  · simp only [receive, h.box]
  · rw [Registry.under, entries_receive]
    exact h.under
  · rw [mailbox?_receive, if_pos rfl, h.box]
    rfl

theorem forgotten (h : r.Watched flow opened n entries m) {token : Token}
    (hall : ∀ e ∈ entries, e.token = token) :
    ((r.release token).2.drop n).Clear flow opened := by
  refine ⟨(h.sound.release token).drop n, ?_, ?_⟩
  · have hopened := h.assigned.opened
    have hmore := r.registrations_apply_le (.release token)
    exact Nat.le_trans h.since (Nat.le_trans (Nat.le_of_lt hopened) hmore)
  · change (r.release token).2.under flow = []
    rw [under_release, h.under, List.filter_eq_nil_iff]
    intro e he
    simp [hall e he]

end Watched

end InbandTrace.Registry
