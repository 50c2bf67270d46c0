import InbandTrace.Proofs.Packet.Datagram
import InbandTrace.Proofs.Registry.Tenure

namespace InbandTrace.Registry

structure Captured where
  data : Packet.Bytes
  source : Net.Ip
  receivedAt : Instant
  deriving DecidableEq, Repr

namespace Captured

def operation (c : Captured) : Operation := .packet c.data c.source c.receivedAt

def reply (c : Captured) : Except Packet.Error Packet.Reply :=
  Packet.Reply.ofDatagram c.data c.source

/-- It cannot be read, or names a token that is not pending. -/
def Stray (r : Registry) (c : Captured) : Prop :=
  ∀ reply, c.reply = .ok reply → r.contains reply.token = false

instance (r : Registry) (c : Captured) : Decidable (c.Stray r) :=
  match h : c.reply with
  | .error e => .isTrue fun reply hok => nomatch h.symm.trans hok
  | .ok reply => decidable_of_iff (r.contains reply.token = false)
      ⟨fun hfree reply' hok => by cases h.symm.trans hok; exact hfree, fun hs => hs reply h⟩

end Captured

abbrev Strewn := List (Captured ⊕ Operation)

namespace Strewn

def whole (h : Strewn) : List Operation := h.map (Sum.elim Captured.operation id)

def kept (h : Strewn) : List Operation := h.filterMap Sum.getRight?

def keptAnswers (h : Strewn) (answers : List Answer) : List Answer :=
  (h.zip answers).filterMap fun x => x.1.getRight?.map fun _ => x.2

def AllStray (r : Registry) : Strewn → Prop
  | [] => True
  | .inl c :: rest => c.Stray r ∧ AllStray (r.apply c.operation).2 rest
  | .inr op :: rest => AllStray (r.apply op).2 rest

instance decidableAllStray (r : Registry) : (h : Strewn) → Decidable (AllStray r h)
  | [] => .isTrue trivial
  | .inl _ :: rest => @instDecidableAnd _ _ inferInstance (decidableAllStray _ rest)
  | .inr op :: rest => decidableAllStray (r.apply op).2 rest

end Strewn

variable {r : Registry}

theorem dispatch_of_held (hs : r.Sound) {data : Packet.Bytes} {source : Net.Ip} {t : Instant}
    {reply : Packet.Reply} {e : Entry} (hparse : Packet.Reply.ofDatagram data source = .ok reply)
    (hfind : r.find? reply.token = some e) (hheld : (r.mailbox? e.mailbox).isSome) :
    r.dispatch data source t = (.delivered reply.token, (r.erase reply.token).setMailbox e.mailbox
      (.holding (.resolved e.ttl reply.responder (t - e.sentAt) reply.kind))) := by
  obtain ⟨he, htoken⟩ := find?_eq_some hfind
  obtain ⟨m, hm⟩ := Option.isSome_iff_exists.mp hheld
  have hwaiting : r.mailbox? e.mailbox = some .waiting := hm.trans (by rw [hs.waits e he m hm])
  have hresolve := hs.resolve_of_waiting he hwaiting reply.responder reply.kind t
  rw [htoken] at hresolve
  simp only [dispatch, hparse, hresolve, if_true]

theorem dispatch_of_dropped {data : Packet.Bytes} {source : Net.Ip} {t : Instant}
    {reply : Packet.Reply} {e : Entry} (hparse : Packet.Reply.ofDatagram data source = .ok reply)
    (hfind : r.find? reply.token = some e) (hdropped : r.mailbox? e.mailbox = none) :
    r.dispatch data source t = (.unmatched reply.token, r.erase reply.token) := by
  have hgone : (r.erase reply.token).mailbox? e.mailbox = none := hdropped
  simp [dispatch, hparse, resolve, hfind, deliver, hgone]

theorem dispatch_of_free {data : Packet.Bytes} {source : Net.Ip} {t : Instant}
    {reply : Packet.Reply} (hparse : Packet.Reply.ofDatagram data source = .ok reply)
    (hfree : r.contains reply.token = false) :
    r.dispatch data source t = (.unmatched reply.token, r) := by
  simp [dispatch, hparse, resolve_of_not_contains hfree]

namespace Captured

variable {c : Captured}

theorem Stray.apply (h : c.Stray r) :
    ∃ outcome, r.apply c.operation = (.dispatched outcome, r) ∧
      ∀ token, outcome ≠ .delivered token := by
  have happly : r.apply c.operation = (.dispatched (r.dispatch c.data c.source c.receivedAt).1,
      (r.dispatch c.data c.source c.receivedAt).2) := rfl
  rw [happly]
  cases hparse : c.reply with
  | error e =>
      rw [dispatch_malformed hparse]
      exact ⟨_, rfl, by simp⟩
  | ok reply =>
      rw [dispatch_of_free hparse (h reply hparse)]
      exact ⟨_, rfl, by simp⟩

end Captured

namespace Strewn

variable {h : Strewn}

theorem AllStray.front {before after : Strewn} (hs : AllStray r (before ++ after)) :
    AllStray r before := by
  induction before generalizing r with
  | nil => trivial
  | cons x rest ih =>
      cases x with
      | inl c => exact ⟨hs.1, ih hs.2⟩
      | inr op => exact ih (r := (r.apply op).2) hs

theorem AllStray.history (hs : AllStray r h) :
    r.after (whole h) = r.after (kept h) ∧
      keptAnswers h (r.answers (whole h)) = r.answers (kept h) ∧
      ∀ n, r.yields n (whole h) = r.yields n (kept h) := by
  induction h generalizing r with
  | nil => exact ⟨rfl, rfl, fun _ => rfl⟩
  | cons x rest ih =>
      cases x with
      | inl c =>
          obtain ⟨outcome, happly, -⟩ := hs.1.apply
          have hsame : (r.apply c.operation).2 = r := by rw [happly]
          obtain ⟨hafter, hanswers, hyields⟩ := ih (hsame ▸ hs.2)
          refine ⟨?_, ?_, fun n => ?_⟩
          · change (r.apply c.operation).2.after (whole rest) = _
            rw [hsame]
            exact hafter
          · change keptAnswers rest ((r.apply c.operation).2.answers (whole rest)) = _
            rw [hsame]
            exact hanswers
          · change (r.apply c.operation).2.yields n (whole rest) = _
            rw [hsame]
            exact hyields n
      | inr op =>
          obtain ⟨hafter, hanswers, hyields⟩ := ih (r := (r.apply op).2) hs
          refine ⟨hafter, ?_, fun n => ?_⟩
          · exact congrArg ((r.apply op).1 :: ·) hanswers
          · exact congrArg ((r.yield? n op).toList ++ ·) (hyields n)

end Strewn

theorem dispatch_cases (hs : r.Sound) (c : Captured) :
    let answer := r.dispatch c.data c.source c.receivedAt
    (c.Stray r ∧ answer.2 = r ∧ ∀ token, answer.1 ≠ .delivered token) ∨
    ∃ reply e, c.reply = .ok reply ∧ r.find? reply.token = some e ∧
      ((r.mailbox? e.mailbox = none ∧ answer = (.unmatched reply.token, r.erase reply.token)) ∨
        ((r.mailbox? e.mailbox).isSome ∧ answer = (.delivered reply.token,
          (r.erase reply.token).setMailbox e.mailbox (.holding
            (.resolved e.ttl reply.responder (c.receivedAt - e.sentAt) reply.kind))))) := by
  intro answer
  cases hparse : c.reply with
  | error e =>
      have hsame : answer = (.malformed e, r) := dispatch_malformed hparse
      rw [hsame]
      exact .inl ⟨fun reply h => by simp [hparse] at h, rfl, by simp⟩
  | ok reply =>
      cases hfind : r.find? reply.token with
      | none =>
          have hfree : r.contains reply.token = false := by simp [contains, hfind]
          have hsame : answer = (.unmatched reply.token, r) := dispatch_of_free hparse hfree
          rw [hsame]
          refine .inl ⟨fun reply' h => ?_, rfl, by simp⟩
          cases hparse.symm.trans h
          exact hfree
      | some e =>
          refine .inr ⟨reply, e, rfl, hfind, ?_⟩
          cases hbox : r.mailbox? e.mailbox with
          | none => exact .inl ⟨rfl, dispatch_of_dropped hparse hfind hbox⟩
          | some m => exact .inr ⟨rfl, dispatch_of_held hs hparse hfind (by simp [hbox])⟩

theorem delivered_iff (hs : r.Sound) (c : Captured) {token : Token} :
    (r.dispatch c.data c.source c.receivedAt).1 = .delivered token ↔
      ∃ reply e, c.reply = .ok reply ∧ reply.token = token ∧ r.find? token = some e ∧
        (r.mailbox? e.mailbox).isSome := by
  constructor
  · intro h
    rcases dispatch_cases hs c with ⟨-, -, hno⟩ | ⟨reply, e, hparse, hfind, ⟨-, hd⟩ | ⟨hheld, hd⟩⟩
    · exact absurd h (hno token)
    · rw [hd] at h
      cases h
    · rw [hd] at h
      cases h
      exact ⟨reply, e, hparse, rfl, hfind, hheld⟩
  · rintro ⟨reply, e, hparse, rfl, hfind, hheld⟩
    rw [dispatch_of_held hs hparse hfind hheld]

theorem dispatch_of_undelivered (hs : r.Sound) {c : Captured}
    (h : ∀ token, (r.dispatch c.data c.source c.receivedAt).1 ≠ .delivered token) :
    let after := (r.dispatch c.data c.source c.receivedAt).2
    after.registrations = r.registrations ∧ (∀ n, after.mailbox? n = r.mailbox? n) ∧
      ∀ x, x ∈ after.entries ↔ x ∈ r.entries ∧ ∀ reply, c.reply = .ok reply →
        reply.token = x.token → (r.mailbox? x.mailbox).isSome := by
  intro after
  rcases dispatch_cases hs c with
    ⟨hstray, hsame, -⟩ | ⟨reply, e, hparse, hfind, ⟨hbox, hd⟩ | ⟨-, hd⟩⟩
  · have hafter : after = r := hsame
    rw [hafter]
    refine ⟨rfl, fun _ => rfl, fun x => ⟨fun hx => ⟨hx, fun reply hparse htoken => ?_⟩, And.left⟩⟩
    exact absurd htoken.symm (contains_eq_false_iff.mp (hstray reply hparse) x hx)
  · have hafter : after = r.erase reply.token := congrArg Prod.snd hd
    rw [hafter]
    refine ⟨rfl, fun _ => rfl, fun x => ?_⟩
    simp only [erase, List.mem_filter, bne_iff_ne, ne_eq]
    refine and_congr_right fun hx => ⟨fun hne reply' hparse' htoken => ?_, fun hheld hsame => ?_⟩
    · cases hparse.symm.trans hparse'
      exact absurd htoken.symm hne
    · have hfound := hs.find?_of_mem hx
      rw [hsame, hfind] at hfound
      cases hfound
      simp [hbox] at hheld
      exact hheld reply hparse hsame.symm
  · exact absurd (congrArg Prod.fst hd) (h _)

theorem dispatch_of_history (history : List Operation) :
    let r := empty.after history
    (∀ data source receivedAt,
      let answer := r.dispatch data source receivedAt
      let parse := Packet.Reply.ofDatagram data source
      (∀ token, answer.1 = .delivered token ↔ ∃ reply e, parse = .ok reply ∧
        reply.token = token ∧ r.find? token = some e ∧ (r.mailbox? e.mailbox).isSome) ∧
      (∀ reply e, parse = .ok reply → r.find? reply.token = some e →
        (r.mailbox? e.mailbox).isSome →
        answer.2.entries = r.entries.filter (fun x => x.token != reply.token) ∧
          answer.2.registrations = r.registrations ∧
          ∀ n, answer.2.mailbox? n = if n = e.mailbox
            then some (.holding ⟨e.ttl, some source, some (receivedAt - e.sentAt),
              if reply.kind = .timeExceeded ∨ reply.kind = .destination then .answered
              else .unreachable⟩)
            else r.mailbox? n) ∧
      ((∀ token, answer.1 ≠ .delivered token) →
        answer.2.registrations = r.registrations ∧ (∀ n, answer.2.mailbox? n = r.mailbox? n) ∧
          ∀ x, x ∈ answer.2.entries ↔ x ∈ r.entries ∧ ∀ reply, parse = .ok reply →
            reply.token = x.token → (r.mailbox? x.mailbox).isSome)) ∧
    ∀ mixed : Strewn, mixed.AllStray r →
      mixed.keptAnswers (r.answers mixed.whole) = r.answers mixed.kept ∧
      (∀ n, r.yields n mixed.whole = r.yields n mixed.kept) ∧
      ∀ before after, mixed = before ++ after →
        r.after before.whole = r.after before.kept := by
  intro r
  have hs : r.Sound := sound_after_empty history
  refine ⟨fun data source receivedAt =>
    ⟨fun token => delivered_iff hs ⟨data, source, receivedAt⟩, ?_,
      dispatch_of_undelivered hs (c := ⟨data, source, receivedAt⟩)⟩, ?_⟩
  · intro reply e hparse hfind hheld
    have hresponder : reply.responder = source := by
      obtain ⟨-, -, -, rfl⟩ := Packet.Reply.ofDatagram_eq_ok_iff.mp hparse
      rfl
    rw [dispatch_of_held hs hparse hfind hheld, hresponder, Hop.resolved_eq]
    refine ⟨rfl, rfl, fun n => ?_⟩
    obtain ⟨m, hm⟩ := Option.isSome_iff_exists.mp hheld
    rw [mailbox?_setMailbox, mailbox?_erase]
    split
    · rename_i hn
      rw [hn, hm]
      rfl
    · rfl
  · intro mixed hstray
    obtain ⟨-, hanswers, hyields⟩ := hstray.history
    refine ⟨hanswers, hyields, ?_⟩
    rintro before after rfl
    exact hstray.front.history.1

def strewn : Strewn :=
  let router : Net.Ip := .v4 ⟨10, 0, 0, 1⟩
  let about (token : Token) : Packet.Bytes := (Packet.IcmpError.about token router 11 0).bytes
  [.inl ⟨[69, 0, 0], router, 1⟩, .inr (.restamp sampleToken 5 50),
    .inl ⟨about { sampleToken with ipLength := 61 }, router, 30⟩,
    .inr (.packet (about sampleToken) router 45), .inl ⟨about sampleToken, router, 46⟩,
    .inr (.receive 0)]

theorem dispatch_of_strewn :
    let r := empty.after [.register sampleToken 4 0 10]
    strewn.AllStray r ∧
      r.answers strewn.kept = [.found true, .dispatched (.delivered sampleToken),
        .received (.hop ⟨4, some (.v4 ⟨10, 0, 0, 1⟩), some 40, .answered⟩)] ∧
      strewn.keptAnswers (r.answers strewn.whole) = r.answers strewn.kept := by
  intro r
  have hstray : strewn.AllStray r := by decide +kernel
  obtain ⟨-, hstrewn⟩ := dispatch_of_history [.register sampleToken 4 0 10]
  exact ⟨hstray, by decide +kernel, (hstrewn strewn hstray).1⟩

end InbandTrace.Registry
