import InbandTrace.Proofs.Packet.Datagram
import InbandTrace.Proofs.Sender.Launch
import Mathlib.Logic.Relation

namespace InbandTrace

namespace Registry

variable {r : Registry} {data : Packet.Bytes} {source : Net.Ip}

theorem dispatch_of_pending (at_ : Instant) (hs : r.Sound) {e : Entry} (he : e ∈ r.entries)
    (hheld : (r.mailbox? e.mailbox).isSome) {reply : Packet.Reply}
    (hparse : Packet.Reply.ofDatagram data source = .ok reply) (htoken : reply.token = e.token) :
    (r.dispatch data source at_).1 = .delivered e.token ∧
      ((r.dispatch data source at_).2.receive e.mailbox).1 =
        .hop (.resolved e.ttl reply.responder (at_ - e.sentAt) reply.kind) := by
  obtain ⟨m, hm⟩ := Option.isSome_iff_exists.mp hheld
  have hwaiting : r.mailbox? e.mailbox = some .waiting := by
    rw [hm, hs.waits e he m hm]
  have hresolve := hs.resolve_of_waiting he hwaiting reply.responder reply.kind at_
  have hdispatch : r.dispatch data source at_ = (.delivered e.token, (r.erase e.token).setMailbox
      e.mailbox (.holding (.resolved e.ttl reply.responder (at_ - e.sentAt) reply.kind))) := by
    simp only [dispatch, hparse, htoken, hresolve, if_true]
  rw [hdispatch]
  refine ⟨rfl, ?_⟩
  simp only [receive, mailbox?_setMailbox, if_true, mailbox?_erase, hwaiting, Option.map_some]

theorem dispatch_of_foreign {n : Nat} {token : Token} (at_ : Instant)
    (howner : ∀ e ∈ r.entries, e.mailbox = n → e.token = token)
    (hforeign : ∀ reply, Packet.Reply.ofDatagram data source = .ok reply → reply.token ≠ token) :
    (r.dispatch data source at_).1 ≠ .delivered token ∧
      (r.dispatch data source at_).2.mailbox? n = r.mailbox? n := by
  cases hparse : Packet.Reply.ofDatagram data source with
  | error e =>
      rw [dispatch_malformed hparse]
      exact ⟨by simp, rfl⟩
  | ok reply =>
      have hne := hforeign reply hparse
      constructor
      · simp only [dispatch, hparse]
        split
        · simpa using hne
        · simp
      · simp only [dispatch, hparse, resolve]
        cases hfind : r.find? reply.token with
        | none => rfl
        | some e =>
            obtain ⟨he, htoken⟩ := find?_eq_some hfind
            have hother : n ≠ e.mailbox := by
              rintro rfl
              exact hne (htoken.symm.trans (howner e he rfl))
            rw [mailbox?_deliver, if_neg hother, mailbox?_erase]

def Operation.Restamps (token : Token) : Operation → Prop
  | .restamp t _ _ => t = token
  | _ => False

end Registry

def Event.Restamps (token : Token) : Event → Prop
  | .registry op => op.Restamps token
  | _ => False

def World.Unstamped (w : World) (token : Token) : Prop :=
  (∀ x ∈ w.connection.agenda, ¬x.2.Restamps token) ∧
    ∀ ttl, ∀ r ∈ (w.connection.behaviour.write ttl).reactions, ∀ payload,
      ¬(r.2 payload).Restamps token

def Packet.IcmpError.Quotes (e : IcmpError) (src : Net.Ipv4) (srcPort : UInt16) (dst : Net.Ipv4)
    (dstPort : UInt16) (length : Nat) : Prop :=
  e.quoted.src = src ∧ e.srcPort = srcPort ∧ e.quoted.dst = dst ∧ e.dstPort = dstPort ∧
    e.quoted.totalLength.toNat = length

namespace Sender

theorem start_ok {s : Sender} {w w' : World} (h : start w = (.ok s, w')) :
    ∃ flow info, flowOf w.connection.behaviour = .ok flow ∧ w.statistics.1 = .ok info ∧
      s.flow = flow ∧ s.overhead = info.overhead := by
  unfold start at h
  split at h
  · cases h
  rename_i flow hflow
  split at h
  · cases h
  rename_i info w₁ hinfo
  split at h
  · cases h
  cases h
  exact ⟨flow, info, hflow, by rw [hinfo], rfl, rfl⟩

theorem launch_sender (s : Sender) (w : World) (ttl : UInt8) :
    (s.launch w ttl).2.1 = { s with serial := (s.launch w ttl).2.1.serial } := by
  simp only [launch]
  split
  · rename_i s₁ token h
    exact sender_of_reserve h
  · rename_i s₁ m r h
    split
    · exact sender_of_reserve h
    · exact sender_of_reserve h

def Sent (s s' : Sender) : Prop := ∃ w ttl, s' = (s.send w ttl).2.1

theorem send_sender (s : Sender) (w : World) (ttl : UInt8) :
    (s.send w ttl).2.1 = (s.launch w ttl).2.1 := by
  unfold send
  split
  · rename_i h
    rw [h]
  · rename_i h
    rw [h]
    split <;> rfl

theorem Sent.frame {s s' : Sender} (h : Relation.ReflTransGen Sent s s') :
    s' = { s with serial := s'.serial } := by
  induction h with
  | refl => rfl
  | tail _ hsent ih =>
      obtain ⟨w, ttl, rfl⟩ := hsent
      rw [send_sender, launch_sender]
      rw [ih]

theorem send_ok {s s' : Sender} {w w' : World} {ttl : UInt8} {p : Flight}
    (h : s.send w ttl = (.ok p, s', w')) :
    ∃ d w₁, s.launch w ttl = (.ok d, s', w₁) ∧ p = d.flight ∧
      w' = (s'.land { w₁ with now := d.done } d).2 := by
  unfold send at h
  split at h
  · cases h
  rename_i d s₁ w₁ hlaunch
  split at h
  · rename_i flight w₂ hland
    cases h
    exact ⟨d, w₁, hlaunch, land_ok hland, by rw [hland]⟩
  · cases h

theorem toNat_ipLength {s : Sender} {info : TcpInfo} (h : s.overhead = info.overhead) :
    s.token.ipLength.toNat = info.overhead + 2 + Payload.length s.serial := by
  have hlength := Payload.length_le s.serial
  have hoverhead : info.overhead ≤ 52 := by
    unfold TcpInfo.overhead
    split <;> omega
  simp only [token, h, Payload.wireLength, Nat.toUInt16, UInt16.toNat_ofNat']
  omega

theorem assigned_of_send {s s' : Sender} {w w' : World} {ttl : UInt8} {p : Flight}
    (hs : w.engine.registry.Sound) (h : s.send w ttl = (.ok p, s', w'))
    (hstamp : w.Unstamped p.token) :
    w'.engine.registry.Sound ∧ p.token = s'.token ∧ p.ttl = ttl ∧
      p.payload = Payload.bytes s'.serial ttl ∧ w'.engine.registry.Assigned p.mailbox fun e =>
        e.token = p.token ∧ e.ttl = p.ttl ∧ e.sentAt = p.sentAt := by
  obtain ⟨d, w₁, hlaunch, rfl, rfl⟩ := send_ok h
  let P : Registry.Operation → Prop := fun op =>
    ∀ at_ deadline, op = .restamp d.flight.token at_ deadline → at_ = w.now
  have hallowed : ∀ {e : Event}, ¬e.Restamps d.flight.token → e.Allowed P := by
    intro e he due op hop at_ deadline hrestamp
    subst hrestamp
    cases e with
    | registry op =>
        simp only [Event.operation?, Option.some.injEq] at hop
        subst hop
        exact absurd rfl he
    | _ => simp [Event.operation?] at hop
  have hfirst : w.Allowed P := fun x hx => hallowed (hstamp.1 x hx)
  have hown : P (.restamp s'.token w.now (w.now + s.hopTimeout)) := by
    intro at_ deadline hrestamp
    simp only [Registry.Operation.restamp.injEq] at hrestamp
    exact hrestamp.2.1.symm
  obtain ⟨w₀, r, w₂, hl⟩ := launch_ok hfirst hlaunch hown
  have hkeeps : ∀ op, P op → op.Keeps fun e =>
      e.token = d.flight.token ∧ e.ttl = d.flight.ttl ∧ e.sentAt = d.flight.sentAt := by
    intro op hop
    cases op with
    | restamp token at_ deadline =>
        rintro e rfl ⟨htoken, httl, -⟩
        rw [htoken] at hop
        exact ⟨htoken, httl, (hop _ _ rfl).trans hl.sentAt.symm⟩
    | _ => trivial
  have hassigned := hl.assigned hs hkeeps ⟨hl.token.symm, hl.probed.symm, hl.sentAt.symm⟩
  have hregister : P (.register s'.token ttl w.now (w.now + s.hopTimeout)) := by
    intro at_ deadline hrestamp
    cases hrestamp
  have hevolves := hl.evolves hregister
  have hsecond : World.Allowed P { w₁ with now := d.done } := by
    rintro x hx
    simp only [hl.pinged, World.ping, Connection.ping, hevolves.behaviour] at hx
    rcases Agenda.mem_scheduleAll.mp hx with ⟨y, hy, rfl⟩ | hold
    · obtain ⟨reaction, hreaction, rfl⟩ := List.mem_map.mp hy
      exact hallowed (hstamp.2 _ reaction hreaction _)
    · exact hfirst x (hevolves.agenda.subset hold)
  have hlast := evolves_land (P := P) s' { w₁ with now := d.done } d hsecond
    (fun _ _ hrestamp => by cases hrestamp) (fun _ _ hrestamp => by cases hrestamp)
  have hsound : w₁.engine.registry.Sound := by
    rw [hl.pinged]
    exact hevolves.sound hs
  exact ⟨hlast.sound hsound, hl.token, hl.probed, hl.payload, hlast.assigned hkeeps hassigned⟩

theorem flow_of_start {s : Sender} {w w' : World} {src dst : Net.Socket} {a b : Net.Ipv4}
    (hsrc : w.connection.behaviour.localAddress = .ok src)
    (hdst : w.connection.behaviour.peerAddress 0 = .ok dst) (ha : src.ip.canonical = .v4 a)
    (hb : dst.ip.canonical = .v4 b) (h : start w = (.ok s, w')) :
    s.flow = ⟨.v4 a src.port, .v4 b dst.port⟩ := by
  obtain ⟨flow, info, hflow, -, hs, -⟩ := start_ok h
  rw [flowOf_of_v4 hsrc hdst hb] at hflow
  rw [hs, ← Except.ok.inj hflow]
  simp [Flow.between, Net.Socket.canonical, Net.Socket.ofIp, ha, hb]

theorem token_eq_iff {e : Packet.IcmpError} {token : Token} {a b : Net.Ipv4} {m n : UInt16}
    (h : token.flow = ⟨.v4 a m, .v4 b n⟩) :
    e.token = token ↔ e.Quotes a m b n token.ipLength.toNat := by
  obtain ⟨flow, length⟩ := token
  subst h
  simp only [Packet.IcmpError.token, Packet.IcmpError.Quotes, Token.mk.injEq, Flow.mk.injEq,
    Net.Socket.v4.injEq, UInt16.toNat_inj, and_assoc]

theorem flight_answered {w₀ w₁ w w' : World} {s₀ s s' : Sender} {src dst : Net.Socket}
    {a b : Net.Ipv4} {info : TcpInfo} {ttl : UInt8} {p : Flight}
    (history later : List Registry.Operation)
    (hsrc : w₀.connection.behaviour.localAddress = .ok src)
    (hdst : w₀.connection.behaviour.peerAddress 0 = .ok dst)
    (ha : src.ip.canonical = .v4 a) (hb : dst.ip.canonical = .v4 b)
    (hinfo : w₀.statistics.1 = .ok info) (hstart : start w₀ = (.ok s₀, w₁))
    (hsent : Relation.ReflTransGen Sent s₀ s)
    (hhistory : w.engine.registry = Registry.empty.after history)
    (hsend : s.send w ttl = (.ok p, s', w'))
    (hstamp : w.Unstamped p.token) (hlater : ∀ op ∈ later, ¬op.Restamps p.token) :
    let r := w'.engine.registry.after later
    let length := info.overhead + 2 + p.payload.length
    p.token.ipLength.toNat = length ∧
    (∀ entry ∈ r.entries, entry.mailbox = p.mailbox → (r.mailbox? p.mailbox).isSome →
      ∀ e : Packet.IcmpError, e.WellFormed → e.Quotes a src.port b dst.port length →
        ∀ source receivedAt,
          (r.dispatch e.bytes source receivedAt).1 = .delivered p.token ∧
          ((r.dispatch e.bytes source receivedAt).2.receive p.mailbox).1 =
            .hop ⟨p.ttl, some source, some (receivedAt - p.sentAt),
              if e.type = 11 then .answered else .unreachable⟩) ∧
    ∀ data, (∀ e : Packet.IcmpError, e.WellFormed → e.Quotes a src.port b dst.port length →
        data ≠ e.bytes) →
      ∀ source receivedAt,
        (r.dispatch data source receivedAt).1 ≠ .delivered p.token ∧
        (r.dispatch data source receivedAt).2.mailbox? p.mailbox = r.mailbox? p.mailbox := by
  have hsound : w.engine.registry.Sound := hhistory ▸ Registry.sound_after_empty history
  obtain ⟨hsound', htoken, -, hpayload, hassigned⟩ := assigned_of_send hsound hsend hstamp
  obtain ⟨-, info', -, hinfo', -, hoverhead⟩ := start_ok hstart
  obtain rfl : info' = info := Except.ok.inj (hinfo'.symm.trans hinfo)
  have hframe : s' = { s₀ with serial := s'.serial } := by
    refine Sent.frame (hsent.tail ⟨w, ttl, ?_⟩)
    rw [hsend]
  have hflow : p.token.flow = ⟨.v4 a src.port, .v4 b dst.port⟩ := by
    have hstarted := flow_of_start hsrc hdst ha hb hstart
    rw [htoken, token, hframe]
    exact hstarted
  have hlength : p.token.ipLength.toNat = info'.overhead + 2 + p.payload.length := by
    have hsender : s'.overhead = info'.overhead := by
      rw [hframe]
      exact hoverhead
    rw [htoken, toNat_ipLength hsender, hpayload, Payload.length_bytes]
  have hkeeps : ∀ op ∈ later, op.Keeps fun e =>
      e.token = p.token ∧ e.ttl = p.ttl ∧ e.sentAt = p.sentAt := by
    intro op hop
    have hne := hlater op hop
    cases op with
    | restamp token at_ deadline =>
        rintro e rfl ⟨hsame, -, -⟩
        exact absurd hsame hne
    | _ => trivial
  have hafter := hassigned.after hkeeps
  have hlast := hsound'.after later
  refine ⟨hlength, ?_, ?_⟩
  · intro entry hentry hmailbox hheld e hw hquotes source receivedAt
    obtain ⟨hown, httl, hsentAt⟩ := hafter.entry entry hentry hmailbox
    have hsame : e.token = entry.token := by
      rw [hown, token_eq_iff hflow, hlength]
      exact hquotes
    rw [← hmailbox] at hheld
    have hdispatch := Registry.dispatch_of_pending receivedAt hlast hentry hheld
      (Packet.Reply.ofDatagram_bytes hw source) hsame
    have hstatus : e.kind.status = if e.type = 11 then .answered else .unreachable := by
      unfold Packet.IcmpError.kind
      split <;> rfl
    rw [hown, hmailbox, httl, hsentAt, Hop.resolved, hstatus] at hdispatch
    exact hdispatch
  · intro data hdata source receivedAt
    refine Registry.dispatch_of_foreign receivedAt (fun entry hentry hmailbox =>
      (hafter.entry entry hentry hmailbox).1) ?_
    intro reply hparse hsame
    obtain ⟨e, hw, rfl, rfl⟩ := Packet.Reply.ofDatagram_eq_ok_iff.mp hparse
    refine hdata e hw ?_ rfl
    rw [← hlength]
    exact (token_eq_iff hflow).mp hsame

def mappedPeer : Net.Socket := .v6 ⟨[0, 0, 0, 0, 0, 0xffff, 0xc633, 0x6414], rfl⟩ 51234 0

def mappedWorld : World where
  now := 0
  engine := { config := .default, wallClock := fun _ => ⟨0, 0⟩ }
  connection := .start
    { localAddress := .ok (.v4 ⟨192, 0, 2, 10⟩ 443)
      peerAddress := fun _ => .ok mappedPeer
      counters := ⟨0, 0, true⟩ } 0

def mappedSender : Sender where
  flow := ⟨.v4 ⟨192, 0, 2, 10⟩ 443, .v4 ⟨198, 51, 100, 20⟩ 51234⟩
  overhead := 52
  defaultTtl := 64
  hopTimeout := Config.default.hopTimeout

theorem flight_answered_mapped : ∃ p s' w', mappedSender.send mappedWorld 3 = (.ok p, s', w') ∧
    p.token.ipLength.toNat = 63 ∧
    ((w'.engine.registry.dispatch (Packet.IcmpError.about p.token (.v4 ⟨10, 1, 1, 1⟩) 11 0).bytes
      (.v4 ⟨10, 1, 1, 1⟩) 7).2.receive p.mailbox).1 =
        .hop ⟨3, some (.v4 ⟨10, 1, 1, 1⟩), some 7, .answered⟩ := by
  have hsome : ∃ p s' w', mappedSender.send mappedWorld 3 = (.ok p, s', w') := ⟨_, _, _, rfl⟩
  obtain ⟨p, s', w', hsend⟩ := hsome
  have hp : p = ⟨⟨mappedSender.flow, 63⟩, 3, 0, Config.default.hopTimeout, Payload.bytes 1 3, 0,
      0⟩ := by
    cases hsend
    rfl
  have hregistry : w'.engine.registry =
      ⟨[⟨⟨mappedSender.flow, 63⟩, 3, 0, Config.default.hopTimeout, 0⟩], [(0, .waiting)], 1⟩ := by
    cases hsend
    rfl
  have hstamp : mappedWorld.Unstamped p.token := by
    refine ⟨?_, ?_⟩
    · intro x hx
      cases hx
    · intro ttl r hr
      cases hr
  subst hp
  have hsrc : mappedWorld.connection.behaviour.localAddress = .ok (.v4 ⟨192, 0, 2, 10⟩ 443) := rfl
  obtain ⟨hlength, hpending, -⟩ := flight_answered (a := ⟨192, 0, 2, 10⟩) (b := ⟨198, 51, 100, 20⟩)
    [] [] hsrc rfl rfl rfl rfl rfl .refl rfl hsend hstamp (by simp)
  refine ⟨_, s', w', hsend, hlength, ?_⟩
  have hentry : ⟨⟨mappedSender.flow, 63⟩, 3, 0, Config.default.hopTimeout, 0⟩ ∈
      w'.engine.registry.entries := by
    rw [hregistry]
    exact List.mem_singleton_self _
  have hheld : (w'.engine.registry.mailbox? 0).isSome := by
    rw [hregistry]
    rfl
  have hwell :
      (Packet.IcmpError.about ⟨mappedSender.flow, 63⟩ (.v4 ⟨10, 1, 1, 1⟩) 11 0).WellFormed :=
    ⟨⟨rfl, by decide⟩, rfl, .inl rfl, rfl, ⟨rfl, by decide⟩, rfl, rfl⟩
  exact (hpending _ hentry rfl hheld _ hwell ⟨rfl, rfl, rfl, rfl, rfl⟩ _ 7).2

end Sender

end InbandTrace
