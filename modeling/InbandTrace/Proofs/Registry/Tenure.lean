import InbandTrace.Proofs.Registry.Sound

namespace InbandTrace

structure Arrival where
  token : Token
  responder : Net.Ip
  kind : ReplyKind
  receivedAt : Instant
  deriving DecidableEq, Repr

def Arrival.hop (a : Arrival) (ttl : UInt8) (sentAt : Instant) : Hop :=
  .resolved ttl a.responder (a.receivedAt - sentAt) a.kind

namespace Registry

def Operation.arrival? : Operation → Option Arrival
  | .resolve token responder kind receivedAt => some ⟨token, responder, kind, receivedAt⟩
  | .packet data source receivedAt =>
      match Packet.Reply.ofDatagram data source with
      | .ok reply => some ⟨reply.token, reply.responder, reply.kind, receivedAt⟩
      | .error _ => none
  | _ => none

/-- The operation answers that it has handed a hop to somebody who waits for it. -/
def delivers (r : Registry) (op : Operation) : Bool :=
  match op, (r.apply op).1 with
  | .resolve .., .found yes => yes
  | .packet .., .dispatched (.delivered _) => true
  | _, _ => false

/-- What has become of a registration whose entry is pending: its latest stamps, and whether its
mailbox is still held. -/
structure Tenure where
  sentAt : Instant
  deadline : Instant
  held : Bool := true
  deriving DecidableEq, Repr

namespace Tenure

/-- A reply that names the token, its release, and a sweep that finds the entry past its deadline or
its mailbox dropped. -/
def endedBy (t : Tenure) (token : Token) : Operation → Bool
  | .release gone => gone == token
  | .reap now => decide (t.deadline ≤ now) || !t.held
  | op => op.arrival?.any fun a => a.token == token

def next (t : Tenure) (token : Token) (n : Nat) : Operation → Tenure
  | .restamp other sentAt deadline =>
      if other = token then { t with sentAt := sentAt, deadline := deadline } else t
  | .drop k => if k = n then { t with held := false } else t
  | _ => t

def lasting? (token : Token) (n : Nat) : Tenure → List Operation → Option Tenure
  | t, [] => some t
  | t, op :: rest =>
      if t.endedBy token op then none else (t.next token n op).lasting? token n rest

end Tenure

def yield? (r : Registry) (n : Nat) : Operation → Option Hop
  | .receive k =>
      match (r.receive k).1 with
      | .hop hop => if k = n then some hop else none
      | _ => none
  | _ => none

def yields (r : Registry) (n : Nat) : List Operation → List Hop
  | [] => []
  | op :: rest => (r.yield? n op).toList ++ (r.apply op).2.yields n rest

def firstUse (n : Nat) (ops : List Operation) : Option Operation :=
  ops.find? fun op => decide (op = .receive n ∨ op = .drop n)

def Operation.concerns (token : Token) (n : Nat) : Operation → Bool
  | .register other _ _ _ | .restamp other _ _ | .release other => other == token
  | .reap _ => true
  | .receive k | .drop k => k == n
  | op => op.arrival?.any fun a => a.token == token

theorem apply_of_arrival {op : Operation} {a : Arrival} (h : op.arrival? = some a) (r : Registry) :
    r.delivers op = (r.resolve a.token a.responder a.kind a.receivedAt).1 ∧
      (r.apply op).2 = (r.resolve a.token a.responder a.kind a.receivedAt).2 := by
  cases op with
  | resolve token responder kind receivedAt =>
      cases h
      exact ⟨rfl, rfl⟩
  | packet data source receivedAt =>
      simp only [Operation.arrival?] at h
      split at h
      · rename_i reply hparse
        cases h
        refine ⟨?_, by simp only [apply, dispatch_eq, hparse]⟩
        simp only [delivers, apply, dispatch, hparse]
        cases (r.resolve reply.token reply.responder reply.kind receivedAt).1 <;> rfl
      · cases h
  | _ => cases h

theorem apply_of_malformed {data : Packet.Bytes} {source : Net.Ip} {receivedAt : Instant}
    (h : (Operation.packet data source receivedAt).arrival? = none) (r : Registry) :
    (r.apply (.packet data source receivedAt)).2 = r := by
  simp only [Operation.arrival?] at h
  split at h
  · cases h
  · rename_i e hparse
    simp only [apply, dispatch_eq, hparse]

theorem delivers_of_not_arrival {op : Operation} (h : op.arrival? = none) (r : Registry) :
    r.delivers op = false := by
  cases op with
  | resolve token responder kind receivedAt => cases h
  | packet data source receivedAt =>
      simp only [Operation.arrival?] at h
      split at h
      · cases h
      · rename_i e hparse
        simp only [delivers, apply, dispatch, hparse]
  | register token ttl s d =>
      simp only [delivers]
  | _ => rfl

theorem Tenure.endedBy_of_arrival (t : Tenure) {token : Token} {op : Operation} {a : Arrival}
    (h : op.arrival? = some a) : t.endedBy token op = (a.token == token) := by
  cases op with
  | resolve other responder kind receivedAt =>
      cases h
      rfl
  | packet data source receivedAt => simp [endedBy, h]
  | _ => cases h

theorem contains_erase (r : Registry) (token : Token) : (r.erase token).contains token = false := by
  rw [contains_eq_false_iff]
  intro e he
  simpa [erase] using (List.mem_filter.mp he).2

structure Pending (r : Registry) (token : Token) (ttl : UInt8) (n : Nat) (t : Tenure) : Prop where
  sound : r.Sound
  entry : ⟨token, ttl, t.sentAt, t.deadline, n⟩ ∈ r.entries
  box : r.mailbox? n = if t.held then some .waiting else none

structure Settled (r : Registry) (n : Nat) (m : Option Mailbox) : Prop where
  sound : r.Sound
  opened : n < r.registrations
  gone : ∀ e ∈ r.entries, e.mailbox ≠ n
  box : r.mailbox? n = m

namespace Pending

variable {r : Registry} {token : Token} {ttl : UInt8} {n : Nat} {t : Tenure}

theorem contains (h : r.Pending token ttl n t) : r.contains token = true := by
  rw [Registry.contains, h.sound.find?_of_mem h.entry]
  rfl

theorem opened (h : r.Pending token ttl n t) : n < r.registrations := h.sound.owned _ h.entry

theorem mailbox_ne (h : r.Pending token ttl n t) {e : Entry} (he : e ∈ r.entries)
    (hne : e.token ≠ token) : n ≠ e.mailbox := by
  intro hsame
  exact hne (congrArg Entry.token (h.sound.eq_of_mailbox he h.entry hsame.symm))

theorem register (h : r.Pending token ttl n t) {other : Token} {ttl' : UInt8} {s d : Instant}
    {k : Nat} {r' : Registry} (hr : r.register other ttl' s d = some (k, r')) :
    r'.Pending token ttl n t := by
  have hbox := h.sound.mailbox?_register hr n
  have hsound := h.sound.register hr
  obtain ⟨-, rfl, rfl⟩ := register_eq_some_iff.mp hr
  refine ⟨hsound, List.mem_append_left _ h.entry, ?_⟩
  rw [hbox, if_neg (Nat.ne_of_lt h.opened)]
  exact h.box

theorem resolve (h : r.Pending token ttl n t) {other : Token} (hne : other ≠ token)
    (responder : Net.Ip) (kind : ReplyKind) (at_ : Instant) :
    (r.resolve other responder kind at_).2.Pending token ttl n t := by
  refine ⟨h.sound.resolve .., ?_, ?_⟩
  · unfold Registry.resolve
    split
    · exact h.entry
    · simpa [erase] using And.intro h.entry hne.symm
  · unfold Registry.resolve
    split
    · exact h.box
    · rename_i e hfind
      obtain ⟨he, rfl⟩ := find?_eq_some hfind
      rw [mailbox?_deliver, if_neg (h.mailbox_ne he hne), mailbox?_erase]
      exact h.box

theorem release (h : r.Pending token ttl n t) {other : Token} (hne : other ≠ token) :
    (r.release other).2.Pending token ttl n t := by
  refine ⟨h.sound.release _, ?_, ?_⟩
  · unfold Registry.release
    split
    · exact h.entry
    · simpa [erase] using And.intro h.entry hne.symm
  · unfold Registry.release
    split
    · exact h.box
    · rename_i e hfind
      obtain ⟨he, rfl⟩ := find?_eq_some hfind
      rw [mailbox?_close, if_neg (h.mailbox_ne he hne), mailbox?_erase]
      exact h.box

theorem restamp (h : r.Pending token ttl n t) (other : Token) (s d : Instant) :
    (r.restamp other s d).2.Pending token ttl n (t.next token n (.restamp other s d)) := by
  refine ⟨h.sound.restamp .., ?_, ?_⟩
  · refine List.mem_map.mpr ⟨_, h.entry, ?_⟩
    simp only [Tenure.next, eq_comm (a := token)]
    split <;> rfl
  · have hheld : (t.next token n (.restamp other s d)).held = t.held := by
      simp only [Tenure.next]
      split <;> rfl
    rw [hheld]
    exact h.box

theorem live (h : r.Pending token ttl n t) {now : Instant} (hdue : now < t.deadline)
    (hheld : t.held = true) : r.live now ⟨token, ttl, t.sentAt, t.deadline, n⟩ = true := by
  simp [Registry.live, hdue, h.box, hheld]

theorem reap (h : r.Pending token ttl n t) {now : Instant} (hdue : now < t.deadline)
    (hheld : t.held = true) : (r.reap now).2.Pending token ttl n t := by
  have hlive := h.live hdue hheld
  refine ⟨h.sound.reap now, ?_, ?_⟩
  · rw [entries_reap, List.mem_filter]
    exact ⟨h.entry, hlive⟩
  · rw [mailbox?_reap, if_neg, h.box]
    intro hdead
    obtain ⟨e, he, hsame⟩ := List.mem_map.mp hdead
    obtain ⟨hmem, hnot⟩ := List.mem_filter.mp he
    rw [h.sound.eq_of_mailbox hmem h.entry hsame, hlive] at hnot
    cases hnot

theorem receive (h : r.Pending token ttl n t) (k : Nat) :
    (r.receive k).2.Pending token ttl n t := by
  refine ⟨h.sound.receive k, by simpa using h.entry, ?_⟩
  rw [mailbox?_receive, h.box]
  split
  · split <;> rfl
  · rfl

theorem drop (h : r.Pending token ttl n t) (k : Nat) :
    (r.drop k).Pending token ttl n (t.next token n (.drop k)) := by
  have hnext : t.next token n (.drop k) = if k = n then { t with held := false } else t := rfl
  rw [hnext]
  by_cases hk : k = n
  · rw [if_pos hk]
    exact ⟨h.sound.drop k, h.entry, by simp [hk]⟩
  · rw [if_neg hk]
    refine ⟨h.sound.drop k, h.entry, ?_⟩
    rw [mailbox?_drop, if_neg (Ne.symm hk)]
    exact h.box

theorem apply (h : r.Pending token ttl n t) {op : Operation} (hop : t.endedBy token op = false) :
    (r.apply op).2.Pending token ttl n (t.next token n op) := by
  cases op with
  | register other ttl' s d =>
      simp only [Registry.apply]
      split
      · exact h
      · exact h.register ‹_›
  | resolve other responder kind at_ =>
      have hne : other ≠ token := by
        simpa [Tenure.endedBy, Operation.arrival?] using hop
      exact h.resolve hne responder kind at_
  | restamp other s d => exact h.restamp other s d
  | release other =>
      have hne : other ≠ token := by
        simpa [Tenure.endedBy] using hop
      exact h.release hne
  | packet data source at_ =>
      have hstay : t.next token n (.packet data source at_) = t := rfl
      rw [hstay]
      cases ha : (Operation.packet data source at_).arrival? with
      | none =>
          rw [apply_of_malformed ha]
          exact h
      | some a =>
          have hne : a.token ≠ token := by
            simpa [Tenure.endedBy, ha] using hop
          rw [(apply_of_arrival ha r).2]
          exact h.resolve hne ..
  | reap now =>
      simp only [Tenure.endedBy, Bool.or_eq_false_iff, decide_eq_false_iff_not, Nat.not_le,
        Bool.not_eq_false'] at hop
      exact h.reap hop.1 hop.2
  | receive k => exact h.receive k
  | drop k => exact h.drop k

end Pending

def Operation.used (n : Nat) : Operation → Option Mailbox → Option Mailbox
  | .receive k, m => if k = n then m.map Mailbox.taken else m
  | .drop k, m => if k = n then none else m
  | _, m => m

namespace Settled

variable {r : Registry} {n : Nat} {m : Option Mailbox}

theorem shrink (h : r.Settled n m) {r' : Registry} (hs : r'.Sound)
    (hreg : r'.registrations = r.registrations) (he : ∀ e ∈ r'.entries, e ∈ r.entries)
    (hbox : r'.mailbox? n = r.mailbox? n) : r'.Settled n m :=
  ⟨hs, hreg ▸ h.opened, fun e hin => h.gone e (he e hin), hbox.trans h.box⟩

theorem register (h : r.Settled n m) {token : Token} {ttl : UInt8} {s d : Instant} {k : Nat}
    {r' : Registry} (hr : r.register token ttl s d = some (k, r')) : r'.Settled n m := by
  have hbox := h.sound.mailbox?_register hr n
  have hsound := h.sound.register hr
  obtain ⟨-, rfl, rfl⟩ := register_eq_some_iff.mp hr
  have hne : n ≠ r.registrations := Nat.ne_of_lt h.opened
  refine ⟨hsound, Nat.lt_succ_of_lt h.opened, ?_, ?_⟩
  · intro e he
    rcases List.mem_append.mp he with he | he
    · exact h.gone e he
    · rw [List.mem_singleton.mp he]
      exact hne.symm
  · rw [hbox, if_neg hne]
    exact h.box

theorem resolve (h : r.Settled n m) (token : Token) (responder : Net.Ip) (kind : ReplyKind)
    (at_ : Instant) : (r.resolve token responder kind at_).2.Settled n m := by
  have hsound := h.sound.resolve token responder kind at_
  unfold Registry.resolve at hsound ⊢
  split at hsound
  · exact h
  · rename_i e hfind
    have hne : n ≠ e.mailbox := (h.gone e (find?_eq_some hfind).1).symm
    refine h.shrink hsound (by simp [erase]) ?_ (by simp [hne])
    intro e' he'
    rw [entries_deliver] at he'
    exact List.mem_of_mem_filter he'

theorem release (h : r.Settled n m) (token : Token) : (r.release token).2.Settled n m := by
  have hsound := h.sound.release token
  unfold Registry.release at hsound ⊢
  split at hsound
  · exact h
  · rename_i e hfind
    have hne : n ≠ e.mailbox := (h.gone e (find?_eq_some hfind).1).symm
    refine h.shrink hsound (by simp [erase]) ?_ (by simp [hne])
    intro e' he'
    rw [entries_close] at he'
    exact List.mem_of_mem_filter he'

theorem restamp (h : r.Settled n m) (token : Token) (s d : Instant) :
    (r.restamp token s d).2.Settled n m := by
  refine ⟨h.sound.restamp .., h.opened, ?_, h.box⟩
  intro e he
  obtain ⟨e', he', rfl⟩ := List.mem_map.mp he
  have hold := h.gone e' he'
  split
  · exact hold
  · exact hold

theorem reap (h : r.Settled n m) (now : Instant) : (r.reap now).2.Settled n m := by
  refine h.shrink (h.sound.reap now) (by simp) ?_ ?_
  · intro e he
    rw [entries_reap] at he
    exact List.mem_of_mem_filter he
  · rw [mailbox?_reap, if_neg]
    intro hdead
    obtain ⟨e, he, hsame⟩ := List.mem_map.mp hdead
    exact h.gone e (List.mem_of_mem_filter he) hsame

theorem apply (h : r.Settled n m) (op : Operation) :
    (r.apply op).2.Settled n (op.used n m) := by
  cases op with
  | register token ttl s d =>
      simp only [Registry.apply]
      split
      · exact h
      · exact h.register ‹_›
  | resolve token responder kind at_ => exact h.resolve ..
  | restamp token s d => exact h.restamp ..
  | release token => exact h.release token
  | packet data source at_ =>
      have hstay : (Operation.packet data source at_).used n m = m := rfl
      rw [hstay]
      cases ha : (Operation.packet data source at_).arrival? with
      | none =>
          rw [apply_of_malformed ha]
          exact h
      | some a =>
          rw [(apply_of_arrival ha r).2]
          exact h.resolve ..
  | reap now => exact h.reap now
  | receive k =>
      refine ⟨h.sound.receive k, by simpa [Registry.apply] using h.opened,
        by simpa [Registry.apply] using h.gone, ?_⟩
      simp only [Registry.apply, mailbox?_receive, h.box, Operation.used, eq_comm (a := n)]
  | drop k =>
      refine ⟨h.sound.drop k, h.opened, h.gone, ?_⟩
      simp only [Registry.apply, mailbox?_drop, h.box, Operation.used, eq_comm (a := n)]

theorem yield?_eq (h : r.Settled n m) (op : Operation) :
    r.yield? n op = match m with
      | some (.holding hop) => if op = .receive n then some hop else none
      | _ => none := by
  cases op with
  | receive k =>
      by_cases hk : k = n
      · subst hk
        rcases m with _ | (_ | hop | _) <;> simp [yield?, Registry.receive, h.box]
      · have hnot : r.yield? n (.receive k) = none := by
          simp only [yield?]
          split
          · rw [if_neg hk]
          · rfl
        rw [hnot]
        rcases m with _ | (_ | hop | _) <;> simp [hk]
  | _ => rcases m with _ | (_ | hop | _) <;> rfl

theorem yields_eq_nil (h : r.Settled n m) (hm : ∀ hop, m ≠ some (.holding hop))
    (ops : List Operation) : r.yields n ops = [] := by
  induction ops generalizing r m with
  | nil => rfl
  | cons op rest ih =>
      have hnone : r.yield? n op = none := by
        rw [h.yield?_eq op]
        split
        · exact absurd rfl (hm _)
        · rfl
      have hused : ∀ hop, op.used n m ≠ some (.holding hop) := by
        intro hop
        have hold := hm hop
        rcases m with _ | (_ | hop' | _) <;> cases op <;> simp_all [Operation.used] <;>
          split <;> simp_all [Mailbox.taken]
      simp only [yields, hnone, Option.toList_none, List.nil_append]
      exact ih (h.apply op) hused

theorem yields_of_holding {hop : Hop} (h : r.Settled n (some (.holding hop)))
    (ops : List Operation) :
    r.yields n ops = if firstUse n ops = some (.receive n) then [hop] else [] := by
  induction ops generalizing r with
  | nil => rfl
  | cons op rest ih =>
      have hnext := h.apply op
      have hyield := h.yield?_eq op
      simp only at hyield
      by_cases hreceive : op = .receive n
      · subst hreceive
        have hclosed := hnext.yields_eq_nil (by simp [Operation.used, Mailbox.taken]) rest
        simp [yields, hyield, hclosed, firstUse]
      by_cases hdrop : op = .drop n
      · subst hdrop
        have hclosed := hnext.yields_eq_nil (by simp [Operation.used]) rest
        simp [yields, hyield, hclosed, firstUse]
      · have hsame : op.used n (some (.holding hop)) = some (.holding hop) := by
          cases op <;> simp_all [Operation.used]
        rw [hsame] at hnext
        have hfirst : firstUse n (op :: rest) = firstUse n rest := by
          simp [firstUse, hreceive, hdrop]
        simp [yields, hyield, hreceive, hfirst, ih hnext]

end Settled

namespace Pending

variable {r : Registry} {token : Token} {ttl : UInt8} {n : Nat} {t : Tenure}

theorem yield?_eq (h : r.Pending token ttl n t) (op : Operation) : r.yield? n op = none := by
  cases op with
  | receive k =>
      by_cases hk : k = n
      · subst hk
        cases hheld : t.held <;> simp [yield?, Registry.receive, h.box, hheld]
      · simp only [yield?]
        split
        · rw [if_neg hk]
        · rfl
  | _ => rfl

theorem after (h : r.Pending token ttl n t) {ops : List Operation} {t' : Tenure}
    (hlast : t.lasting? token n ops = some t') :
    (r.after ops).Pending token ttl n t' ∧ r.yields n ops = [] := by
  induction ops generalizing r t with
  | nil =>
      cases hlast
      exact ⟨h, rfl⟩
  | cons op rest ih =>
      simp only [Tenure.lasting?] at hlast
      split at hlast
      · cases hlast
      · rename_i hgoes
        obtain ⟨hpending, hnone⟩ := ih (h.apply (by simpa using hgoes)) hlast
        refine ⟨hpending, ?_⟩
        simp [yields, h.yield?_eq op, hnone]

theorem gone_erase (h : r.Pending token ttl n t) :
    ∀ e ∈ (r.erase token).entries, e.mailbox ≠ n := by
  intro e he
  obtain ⟨hmem, hne⟩ := List.mem_filter.mp he
  exact (h.mailbox_ne hmem (by simpa using hne)).symm

theorem answered (h : r.Pending token ttl n t) {op : Operation} {a : Arrival}
    (ha : op.arrival? = some a) (htoken : a.token = token) (hheld : t.held = true) :
    r.delivers op = true ∧ (r.apply op).2.contains token = false ∧
      (∀ k, k ≠ n → (r.apply op).2.mailbox? k = r.mailbox? k) ∧
      (r.apply op).2.Settled n (some (.holding (a.hop ttl t.sentAt))) := by
  obtain ⟨hyes, hafter⟩ := apply_of_arrival ha r
  have hbox : r.mailbox? n = some .waiting := by rw [h.box, if_pos hheld]
  have hresolve := h.sound.resolve_of_waiting h.entry hbox a.responder a.kind a.receivedAt
  have hsound := h.sound.resolve a.token a.responder a.kind a.receivedAt
  subst htoken
  rw [hresolve] at hyes hafter hsound
  rw [hyes, hafter]
  refine ⟨rfl, contains_erase r _, ?_, hsound, h.opened, h.gone_erase, ?_⟩
  · intro k hk
    rw [mailbox?_setMailbox, if_neg hk, mailbox?_erase]
  · rw [mailbox?_setMailbox, if_pos rfl, mailbox?_erase, hbox]
    rfl

theorem dropped (h : r.Pending token ttl n t) {op : Operation} {a : Arrival}
    (ha : op.arrival? = some a) (htoken : a.token = token) (hheld : t.held = false) :
    r.delivers op = false ∧ (r.apply op).2.contains token = false ∧
      (r.apply op).2.Settled n none := by
  obtain ⟨hyes, hafter⟩ := apply_of_arrival ha r
  have hbox : r.mailbox? n = none := by simp [h.box, hheld]
  have hsound := h.sound.resolve a.token a.responder a.kind a.receivedAt
  subst htoken
  have hresolve : r.resolve a.token a.responder a.kind a.receivedAt = (false, r.erase a.token) := by
    simp only [Registry.resolve, h.sound.find?_of_mem h.entry, deliver, mailbox?_erase, hbox]
  rw [hresolve] at hyes hafter hsound
  rw [hyes, hafter]
  exact ⟨rfl, contains_erase r _, hsound, h.opened, h.gone_erase, by rw [mailbox?_erase, hbox]⟩

theorem released (h : r.Pending token ttl n t) :
    (r.release token).2.contains token = false ∧
      (r.release token).2.Settled n (if t.held then some .closed else none) := by
  have hsound := h.sound.release token
  have hrelease : r.release token = (true, (r.erase token).close n) := by
    simp only [Registry.release, h.sound.find?_of_mem h.entry]
  rw [hrelease] at hsound ⊢
  refine ⟨?_, hsound, by simpa [erase] using h.opened, by simpa using h.gone_erase, ?_⟩
  · rw [contains_eq_false_iff, entries_close]
    exact contains_eq_false_iff.mp (contains_erase r token)
  · rw [mailbox?_close, if_pos rfl, mailbox?_erase, h.box]
    split <;> rfl

theorem reaped (h : r.Pending token ttl n t) {now : Instant}
    (hdead : t.deadline ≤ now ∨ t.held = false) :
    (r.reap now).2.contains token = false ∧
      (r.reap now).2.Settled n (if t.held then some .closed else none) := by
  have hnot : r.live now ⟨token, ttl, t.sentAt, t.deadline, n⟩ = false := by
    rcases hdead with hlate | hdropped
    · simp [Registry.live, Nat.not_lt_of_le hlate]
    · simp [Registry.live, h.box, hdropped]
  have hgone : ∀ e ∈ (r.reap now).2.entries, e ∈ r.entries ∧ r.live now e = true := by
    intro e he
    rw [entries_reap] at he
    exact List.mem_filter.mp he
  refine ⟨?_, h.sound.reap now, by simpa using h.opened, ?_, ?_⟩
  · rw [contains_eq_false_iff]
    intro e he hsame
    obtain ⟨hmem, hlive⟩ := hgone e he
    rw [h.sound.eq_of_token hmem h.entry hsame, hnot] at hlive
    cases hlive
  · intro e he hsame
    obtain ⟨hmem, hlive⟩ := hgone e he
    rw [h.sound.eq_of_mailbox hmem h.entry hsame, hnot] at hlive
    cases hlive
  · rw [mailbox?_reap, if_pos, h.box]
    · split <;> rfl
    · exact List.mem_map.mpr ⟨_, List.mem_filter.mpr ⟨h.entry, by simp [hnot]⟩, rfl⟩

theorem ended (h : r.Pending token ttl n t) {op : Operation} (hend : t.endedBy token op = true)
    (hnone : op.arrival? = none ∨ t.held = false) :
    r.delivers op = false ∧ (r.apply op).2.contains token = false ∧
      ∃ m, (r.apply op).2.Settled n m ∧ ∀ hop, m ≠ some (.holding hop) := by
  have hclosed : ∀ hop, (if t.held then some Mailbox.closed else none) ≠ some (.holding hop) := by
    intro hop
    split <;> simp
  cases ha : op.arrival? with
  | some a =>
      have hheld : t.held = false := by simpa [ha] using hnone
      have htoken : a.token = token := by simpa [t.endedBy_of_arrival ha] using hend
      obtain ⟨hno, hfree, hsettled⟩ := h.dropped ha htoken hheld
      exact ⟨hno, hfree, none, hsettled, by simp⟩
  | none =>
      refine ⟨delivers_of_not_arrival ha r, ?_⟩
      cases op with
      | release other =>
          have hsame : other = token := by simpa [Tenure.endedBy] using hend
          subst hsame
          exact ⟨h.released.1, _, h.released.2, hclosed⟩
      | reap now =>
          have hdead : t.deadline ≤ now ∨ t.held = false := by simpa [Tenure.endedBy] using hend
          exact ⟨(h.reaped hdead).1, _, (h.reaped hdead).2, hclosed⟩
      | _ => simp_all [Tenure.endedBy, Operation.arrival?]

end Pending

def Tenure.due (token : Token) (ttl : UInt8) (n : Nat) : Tenure → List Operation → List Hop
  | _, [] => []
  | t, op :: rest =>
      if t.endedBy token op then
        match op.arrival?, t.held with
        | some a, true => if firstUse n rest = some (.receive n) then [a.hop ttl t.sentAt] else []
        | _, _ => []
      else (t.next token n op).due token ttl n rest

theorem Pending.yields_eq_due {r : Registry} {token : Token} {ttl : UInt8} {n : Nat} {t : Tenure}
    (h : r.Pending token ttl n t) (ops : List Operation) :
    r.yields n ops = t.due token ttl n ops := by
  induction ops generalizing r t with
  | nil => rfl
  | cons op rest ih =>
      simp only [yields, h.yield?_eq op, Option.toList_none, List.nil_append, Tenure.due]
      split
      · rename_i hend
        split
        · rename_i a ha hheld
          have htoken : a.token = token := by simpa [t.endedBy_of_arrival ha] using hend
          exact (h.answered ha htoken hheld).2.2.2.yields_of_holding rest
        · rename_i hnot
          have hnone : op.arrival? = none ∨ t.held = false := by
            cases ha : op.arrival? with
            | none => exact .inl rfl
            | some a => exact .inr (by simpa using hnot a ha)
          obtain ⟨-, -, m, hsettled, hm⟩ := h.ended hend hnone
          exact hsettled.yields_eq_nil hm rest
      · rename_i hgoes
        exact ih (h.apply (by simpa using hgoes))

theorem firstUse_filter_concerns (token : Token) (n : Nat) (ops : List Operation) :
    firstUse n (ops.filter (Operation.concerns token n)) = firstUse n ops := by
  rw [firstUse, List.find?_filter, firstUse]
  congr 1
  funext op
  cases op <;> simp [Operation.concerns]

namespace Tenure

variable {t : Tenure} {token : Token} {n : Nat} {op : Operation}

theorem endedBy_of_not_concerns (h : op.concerns token n = false) :
    t.endedBy token op = false ∧ t.next token n op = t := by
  cases op <;> simp_all [Operation.concerns, endedBy, next, Operation.arrival?]

theorem lasting?_filter_concerns (t : Tenure) (token : Token) (n : Nat) (ops : List Operation) :
    t.lasting? token n (ops.filter (Operation.concerns token n)) = t.lasting? token n ops := by
  induction ops generalizing t with
  | nil => rfl
  | cons op rest ih =>
      cases hc : op.concerns token n with
      | true => simp only [List.filter_cons, hc, if_true, lasting?, ih]
      | false =>
          obtain ⟨hgoes, hsame⟩ := t.endedBy_of_not_concerns hc
          simp [hc, lasting?, hgoes, hsame, ih]

theorem due_filter_concerns (t : Tenure) (token : Token) (ttl : UInt8) (n : Nat)
    (ops : List Operation) :
    t.due token ttl n (ops.filter (Operation.concerns token n)) = t.due token ttl n ops := by
  induction ops generalizing t with
  | nil => rfl
  | cons op rest ih =>
      cases hc : op.concerns token n with
      | true => simp only [List.filter_cons, hc, if_true, due, ih, firstUse_filter_concerns]
      | false =>
          obtain ⟨hgoes, hsame⟩ := t.endedBy_of_not_concerns hc
          simp [hc, due, hgoes, hsame, ih]

end Tenure

theorem Sound.pending {r r' : Registry} (hs : r.Sound) {token : Token} {ttl : UInt8}
    {sentAt deadline : Instant} {n : Nat}
    (h : r.register token ttl sentAt deadline = some (n, r')) :
    r'.Pending token ttl n ⟨sentAt, deadline, true⟩ := by
  have hbox := hs.mailbox?_register h n
  have hsound := hs.register h
  obtain ⟨-, rfl, rfl⟩ := register_eq_some_iff.mp h
  refine ⟨hsound, List.mem_append_right _ (List.mem_singleton_self _), ?_⟩
  rw [hbox, if_pos rfl]
  rfl

theorem delivery_of_registration {before : List Operation} {token : Token} {ttl : UInt8}
    {sentAt deadline : Instant} {n : Nat} {r : Registry}
    (h : (empty.after before).register token ttl sentAt deadline = some (n, r)) :
    let start : Tenure := ⟨sentAt, deadline, true⟩
    (∀ pre t, start.lasting? token n pre = some t →
      let q := r.after pre
      (∀ ttl' s d, q.apply (.register token ttl' s d) = (.registered none, q)) ∧
      r.yields n pre = [] ∧
      ∀ op, t.endedBy token op = true →
        let q' := (q.apply op).2
        q'.contains token = false ∧
        (∀ a, op.arrival? = some a → t.held = true →
          q.delivers op = true ∧ (∀ k, k ≠ n → q'.mailbox? k = q.mailbox? k) ∧
          ∀ post, q'.yields n post =
            if firstUse n post = some (.receive n) then
              [⟨ttl, some a.responder, some (a.receivedAt - t.sentAt),
                if a.kind = .timeExceeded ∨ a.kind = .destination then .answered
                else .unreachable⟩]
            else []) ∧
        (op.arrival? = none ∨ t.held = false →
          q.delivers op = false ∧ ∀ post, q'.yields n post = [])) ∧
    ∀ later,
      start.lasting? token n (later.filter (Operation.concerns token n)) =
        start.lasting? token n later ∧
      r.yields n (later.filter (Operation.concerns token n)) = r.yields n later := by
  intro start
  have hstart : r.Pending token ttl n start := (sound_after_empty before).pending h
  refine ⟨?_, ?_⟩
  · intro pre t hlast
    obtain ⟨hpending, hnothing⟩ := hstart.after hlast
    refine ⟨?_, hnothing, ?_⟩
    · intro ttl' s d
      simp only [apply, register_eq_none_iff.mpr hpending.contains]
    · intro op hend
      have hfree : ((r.after pre).apply op).2.contains token = false := by
        cases ha : op.arrival? with
        | none => exact (hpending.ended hend (.inl ha)).2.1
        | some a =>
            have htoken : a.token = token := by simpa [t.endedBy_of_arrival ha] using hend
            cases hheld : t.held with
            | false => exact (hpending.ended hend (.inr hheld)).2.1
            | true => exact (hpending.answered ha htoken hheld).2.1
      refine ⟨hfree, ?_, ?_⟩
      · intro a ha hheld
        have htoken : a.token = token := by simpa [t.endedBy_of_arrival ha] using hend
        obtain ⟨hyes, -, hothers, hholding⟩ := hpending.answered ha htoken hheld
        rw [← Hop.resolved_eq]
        exact ⟨hyes, hothers, hholding.yields_of_holding⟩
      · intro hnone
        obtain ⟨hno, -, m, hsettled, hm⟩ := hpending.ended hend hnone
        exact ⟨hno, hsettled.yields_eq_nil hm⟩
  · intro later
    refine ⟨start.lasting?_filter_concerns token n later, ?_⟩
    rw [hstart.yields_eq_due, hstart.yields_eq_due]
    exact start.due_filter_concerns token ttl n later

def sampleToken : Token :=
  ⟨⟨.v4 ⟨192, 0, 2, 1⟩ 443, .v4 ⟨198, 51, 100, 2⟩ 40000⟩, 60⟩

theorem delivery_of_restamped :
    let router : Net.Ip := .v4 ⟨10, 0, 0, 1⟩
    ∃ r, (empty.after [.register sampleToken 9 0 5, .release sampleToken]).register
        sampleToken 4 0 10 = some (1, r) ∧
      let q := r.after [.restamp sampleToken 5 50, .reap 40]
      let reply : Operation := .resolve sampleToken router .timeExceeded 45
      q.delivers reply = true ∧
        (q.apply reply).2.yields 1 [.register sampleToken 2 60 70,
          .resolve sampleToken router (.unreachable 1) 65, .receive 1, .receive 1] =
          [⟨4, some router, some 40, .answered⟩] := by
  intro router
  refine ⟨_, rfl, ?_⟩
  have hstart : (empty.after [.register sampleToken 9 0 5, .release sampleToken]).register
      sampleToken 4 0 10 = some (1, _) := rfl
  obtain ⟨hpending, -⟩ := delivery_of_registration hstart
  obtain ⟨-, -, hend⟩ := hpending [.restamp sampleToken 5 50, .reap 40] ⟨5, 50, true⟩ (by decide)
  obtain ⟨-, hyes, -⟩ := hend (.resolve sampleToken router .timeExceeded 45) (by decide)
  obtain ⟨hdelivers, -, hpost⟩ := hyes _ rfl rfl
  exact ⟨hdelivers, hpost _⟩

end Registry

end InbandTrace
