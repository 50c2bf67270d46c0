import InbandTrace.Proofs.Registry.Foreign
import InbandTrace.Sender.Basic

namespace InbandTrace

def Flight.entry (f : Flight) : Entry := ⟨f.token, f.ttl, f.sentAt, f.deadline, f.mailbox⟩

namespace Registry

/-- How far a probe has come: its entry is pending, or gone with this left in the mailbox. -/
inductive Tenancy where
  | pending
  | settled (box : Mailbox)

namespace Tenancy

def box : Tenancy → Mailbox
  | .pending => .waiting
  | .settled m => m

def answered (f : Flight) (reply : Packet.Reply) (t : Instant) : Tenancy → Tenancy
  | .pending =>
      if reply.token = f.token then
        .settled (.holding (.resolved f.ttl reply.responder (t - f.sentAt) reply.kind))
      else .pending
  | .settled m => .settled m

def captured (f : Flight) (data : Packet.Bytes) (source : Net.Ip) (t : Instant) (s : Tenancy) :
    Tenancy :=
  match Packet.Reply.ofDatagram data source with
  | .ok reply => s.answered f reply t
  | .error _ => s

def receipt : Tenancy → Receipt
  | .pending | .settled .waiting => .empty
  | .settled (.holding hop) => .hop hop
  | .settled .closed => .closed

def read : Tenancy → Tenancy
  | .settled (.holding _) => .settled .closed
  | s => s

end Tenancy

def Shows (r : Registry) (flow : Flow) (f : Flight) : Tenancy → Prop
  | .pending => r.Watched flow 0 f.mailbox [f.entry] .waiting
  | .settled m => r.Watched flow 0 f.mailbox [] m

variable {r : Registry} {flow : Flow} {f : Flight} {s : Tenancy} {m : Mailbox}
  {entries : List Entry} {n k : Nat}

theorem Operation.foreign_packet {data : Packet.Bytes} {source : Net.Ip} {reply : Packet.Reply}
    (hparse : Packet.Reply.ofDatagram data source = .ok reply) (hflow : reply.token.flow ≠ flow)
    (n : Nat) (t : Instant) : (packet data source t).Foreign flow n := by
  intro reply' hparse'
  cases hparse.symm.trans hparse'
  exact hflow

namespace Clear

theorem dispatch (h : r.Clear flow 0) (data : Packet.Bytes) (source : Net.Ip) (t : Instant) :
    (r.dispatch data source t).2.Clear flow 0 := by
  cases hparse : Packet.Reply.ofDatagram data source with
  | error e =>
      rw [dispatch_malformed hparse]
      exact h
  | ok reply =>
      by_cases hflow : reply.token.flow = flow
      · rw [dispatch_of_not_contains hparse (h.not_contains hflow)]
        exact h
      · exact h.foreign (Operation.foreign_packet hparse hflow 0 t)

theorem receive (h : r.Clear flow n) (k : Nat) : (r.receive k).2.Clear flow n := by
  refine ⟨h.sound.receive k, ?_, ?_⟩
  · rw [registrations_receive]
    exact h.since
  · rw [Registry.under, entries_receive]
    exact h.under

theorem drop (h : r.Clear flow n) (k : Nat) : (r.drop k).Clear flow n :=
  ⟨h.sound.drop k, h.since, h.under⟩

end Clear

namespace Watched

theorem receive_ne (h : r.Watched flow 0 n entries m) (hk : n ≠ k) :
    (r.receive k).2.Watched flow 0 n entries m := by
  refine ⟨h.sound.receive k, h.since, ?_, ?_, h.assigned.receive k⟩
  · rw [Registry.under, entries_receive]
    exact h.under
  · rw [mailbox?_receive, if_neg hk]
    exact h.box

theorem drop_ne (h : r.Watched flow 0 n entries m) (hk : n ≠ k) :
    (r.drop k).Watched flow 0 n entries m := by
  refine ⟨h.sound.drop k, h.since, h.under, ?_, h.assigned.drop k⟩
  rw [mailbox?_drop, if_neg hk]
  exact h.box

theorem captured (h : r.Watched flow 0 n entries m) {data : Packet.Bytes} {source : Net.Ip}
    {reply : Packet.Reply} (hparse : Packet.Reply.ofDatagram data source = .ok reply)
    (hnot : ∀ e ∈ entries, e.token ≠ reply.token) (t : Instant) :
    (r.dispatch data source t).2.Watched flow 0 n entries m := by
  by_cases hflow : reply.token.flow = flow
  · rw [dispatch_of_not_contains hparse (h.contains_of_under hflow hnot)]
    exact h
  · exact h.foreign (Operation.foreign_packet hparse hflow 0 t)

end Watched

namespace Shows

theorem watched (h : r.Shows flow f s) :
    ∃ entries, r.Watched flow 0 f.mailbox entries s.box ∧ ∀ e ∈ entries, e.token = f.token := by
  cases s with
  | pending => exact ⟨_, h, by simp [Flight.entry]⟩
  | settled m => exact ⟨_, h, by simp⟩

theorem mailbox? (h : r.Shows flow f s) : r.mailbox? f.mailbox = some s.box := by
  obtain ⟨entries, hw, -⟩ := h.watched
  exact hw.box

theorem opened (h : r.Shows flow f s) : f.mailbox < r.registrations := by
  obtain ⟨entries, hw, -⟩ := h.watched
  exact hw.assigned.opened

theorem dispatch (h : r.Shows flow f s) (data : Packet.Bytes) (source : Net.Ip) (t : Instant) :
    (r.dispatch data source t).2.Shows flow f (s.captured f data source t) := by
  cases hparse : Packet.Reply.ofDatagram data source with
  | error e =>
      rw [dispatch_malformed hparse]
      simpa only [Tenancy.captured, hparse] using h
  | ok reply =>
      simp only [Tenancy.captured, hparse]
      cases s with
      | pending =>
          by_cases htoken : reply.token = f.token
          · simp only [Tenancy.answered, if_pos htoken]
            exact Watched.answered (e := f.entry) h hparse htoken t
          · simp only [Tenancy.answered, if_neg htoken]
            exact Watched.captured h hparse (by simpa [Flight.entry] using Ne.symm htoken) t
      | settled m => exact Watched.captured h hparse nofun t

theorem receive (h : r.Shows flow f s) :
    (r.receive f.mailbox).1 = s.receipt ∧ (r.receive f.mailbox).2.Shows flow f s.read := by
  have hbox := h.mailbox?
  cases s with
  | pending =>
      have hsame : r.receive f.mailbox = (.empty, r) := by
        simp only [Registry.receive, hbox, Tenancy.box]
      rw [hsame]
      exact ⟨rfl, h⟩
  | settled m =>
      cases m with
      | waiting =>
          have hsame : r.receive f.mailbox = (.empty, r) := by
            simp only [Registry.receive, hbox, Tenancy.box]
          rw [hsame]
          exact ⟨rfl, h⟩
      | holding hop =>
          obtain ⟨hreceipt, hread⟩ := Watched.received h
          exact ⟨congrArg Prod.fst hreceipt, hread⟩
      | closed =>
          have hsame : r.receive f.mailbox = (.closed, r) := by
            simp only [Registry.receive, hbox, Tenancy.box]
          rw [hsame]
          exact ⟨rfl, h⟩

theorem forgotten (h : r.Shows flow f s) :
    ((r.release f.token).2.drop f.mailbox).Clear flow 0 := by
  obtain ⟨entries, hw, hall⟩ := h.watched
  exact hw.forgotten hall

theorem foreign (h : r.Shows flow f s) {op : Operation} (hop : op.Foreign flow 0) :
    (r.apply op).2.Shows flow f s := by
  cases s <;> exact Watched.foreign h hop

theorem receive_ne (h : r.Shows flow f s) (hk : f.mailbox ≠ k) :
    (r.receive k).2.Shows flow f s := by
  cases s <;> exact Watched.receive_ne h hk

theorem drop_ne (h : r.Shows flow f s) (hk : f.mailbox ≠ k) : (r.drop k).Shows flow f s := by
  cases s <;> exact Watched.drop_ne h hk

end Shows

end Registry

def Flight.later (d : Span) (n : Nat) (f : Flight) : Flight :=
  { f with sentAt := f.sentAt + d, deadline := f.deadline + d, mailbox := n }

theorem Registry.Tenancy.captured_later (s : Tenancy) (d : Span) (n : Nat) (f : Flight)
    (data : Packet.Bytes) (source : Net.Ip) (t : Instant) :
    s.captured (f.later d n) data source (t + d) = s.captured f data source t := by
  cases s with
  | pending =>
      simp only [captured, answered, Flight.later, Nat.add_sub_add_right]
  | settled m => rfl

namespace Registry

/-- Two registries have the same under a flow, the first some time later: nothing but the probe that
is under way. -/
def Twin (flow : Flow) (d : Span) (n : Nat) : Option Flight → Registry → Registry → Prop
  | none, r, r' => r.Clear flow 0 ∧ r'.Clear flow 0
  | some f, r, r' => f.token.flow = flow ∧ ∃ s, r.Shows flow (f.later d n) s ∧ r'.Shows flow f s

variable {r r' : Registry} {flow : Flow} {d : Span} {n : Nat} {own : Option Flight} {f : Flight}

namespace Twin

theorem dispatch (h : Twin flow d n own r r') (data : Packet.Bytes) (source : Net.Ip)
    (t : Instant) :
    Twin flow d n own (r.dispatch data source (t + d)).2 (r'.dispatch data source t).2 := by
  cases own with
  | none => exact ⟨h.1.dispatch data source (t + d), h.2.dispatch data source t⟩
  | some f =>
      obtain ⟨hflow, s, hs, hs'⟩ := h
      refine ⟨hflow, s.captured f data source t, ?_, hs'.dispatch data source t⟩
      rw [← s.captured_later d n]
      exact hs.dispatch data source (t + d)

theorem enter (h : Twin flow d n none r r') (hf : f.token.flow = flow) :
    ∃ m m' k k', r.register f.token f.ttl (f.sentAt + d) (f.deadline + d) = some (m, k) ∧
      r'.register f.token f.ttl f.sentAt f.deadline = some (m', k') ∧
      Twin flow d m (some { f with mailbox := m' }) k k' := by
  obtain ⟨m, k, hr, hw⟩ := h.1.register hf f.ttl (f.sentAt + d) (f.deadline + d)
  obtain ⟨m', k', hr', hw'⟩ := h.2.register hf f.ttl f.sentAt f.deadline
  exact ⟨m, m', k, k', hr, hr', hf, .pending, hw, hw'⟩

theorem receive (h : Twin flow d n (some f) r r') :
    (r.receive n).1 = (r'.receive f.mailbox).1 ∧
      Twin flow d n (some f) (r.receive n).2 (r'.receive f.mailbox).2 := by
  obtain ⟨hflow, s, hs, hs'⟩ := h
  obtain ⟨hreceipt, hread⟩ := hs.receive
  obtain ⟨hreceipt', hread'⟩ := hs'.receive
  exact ⟨hreceipt.trans hreceipt'.symm, hflow, s.read, hread, hread'⟩

theorem leave (h : Twin flow d n (some f) r r') (m : Nat) :
    Twin flow d m none ((r.release f.token).2.drop n)
      ((r'.release f.token).2.drop f.mailbox) := by
  obtain ⟨-, s, hs, hs'⟩ := h
  exact ⟨hs.forgotten, hs'.forgotten⟩

theorem mailbox? (h : Twin flow d n (some f) r r') : r.mailbox? n = r'.mailbox? f.mailbox := by
  obtain ⟨-, s, hs, hs'⟩ := h
  exact hs.mailbox?.trans hs'.mailbox?.symm

end Twin

end Registry

end InbandTrace
