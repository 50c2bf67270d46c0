import InbandTrace.Connection.Path
import InbandTrace.Proofs.Packet.Datagram
import InbandTrace.Proofs.Registry.Foreign
import InbandTrace.Proofs.Sender.Launch

namespace InbandTrace

namespace Payload

theorem toNat_toUInt16 {k : Nat} (h : k < 65536) : k.toUInt16.toNat = k := by
  rw [Nat.toUInt16, UInt16.toNat_ofNat']
  exact Nat.mod_eq_of_lt h

theorem length_inj {j k : Nat} (hjk : j < k) (hk : k ≤ 96) (hj : 1 ≤ j) :
    length j.toUInt16 ≠ length k.toUInt16 := by
  rw [length, length, toNat_toUInt16 (by omega), toNat_toUInt16 (by omega), lengths]
  omega

theorem serial_of_bytes {s s' : UInt16} {ttl ttl' : UInt8} (h : bytes s ttl = bytes s' ttl') :
    s = s' := by
  simp only [bytes, header, magic, List.cons_append, List.nil_append, List.cons.injEq, true_and]
    at h
  rw [← Net.word_bytes s, ← Net.word_bytes s', h.1, h.2.1]

end Payload

def Event.Foreign (flow : Flow) (opened : Nat) : Event → Prop
  | .packet data source => (Registry.Operation.packet data source 0).Foreign flow opened
  | .registry op => op.Foreign flow opened
  | _ => False

structure Crossing where
  path : Path
  src : Net.Ipv4
  srcPort : UInt16
  dst : Net.Ipv4
  dstPort : UInt16
  timestamps : Bool
  behaviour : Behaviour
  cancelled : Bool
  engine : Engine

namespace Crossing

def flow (x : Crossing) : Flow := ⟨.v4 x.src x.srcPort, .v4 x.dst x.dstPort⟩

def info (x : Crossing) : TcpInfo := ⟨0, 0, x.timestamps⟩

def target (x : Crossing) : Net.Ip := .v4 x.dst

def timeout (x : Crossing) : Span := x.engine.config.hopTimeout

def opened (x : Crossing) : Nat := x.engine.registry.registrations

def token (x : Crossing) (serial : Nat) : Token :=
  ⟨x.flow, (x.info.overhead + Payload.wireLength (Payload.length serial.toUInt16)).toUInt16⟩

def sender (x : Crossing) (serial : Nat) : Sender :=
  ⟨x.flow, x.info.overhead, x.behaviour.ttl, x.timeout, serial.toUInt16⟩

def hop (x : Crossing) (ttl : UInt8) : Hop := x.path.hop x.target x.timeout ttl

def walk (x : Crossing) : List Hop :=
  x.path.walk x.target x.timeout x.engine.config.firstTtl x.engine.config.maxHops

variable (x : Crossing)

theorem next_sender (serial : Nat) : (x.sender serial).next = x.sender (serial + 1) := by
  have hserial : serial.toUInt16 + 1 = (serial + 1).toUInt16 := by
    simp only [Nat.toUInt16, UInt16.ofNat_add]
    rfl
  rw [Sender.next, sender, sender, hserial]

theorem token_sender (serial : Nat) : (x.sender serial).token = x.token serial := rfl

theorem hopTimeout_sender (serial : Nat) : (x.sender serial).hopTimeout = x.timeout := rfl

theorem serial_sender (serial : Nat) : (x.sender serial).serial = serial.toUInt16 := rfl

theorem token_ne {j k : Nat} (hj : 1 ≤ j) (hjk : j < k) (hk : k ≤ 96) : x.token j ≠ x.token k := by
  intro h
  have hlength := congrArg (fun t : Token => t.ipLength.toNat) h
  have hoverhead : x.info.overhead ≤ 52 := by
    unfold TcpInfo.overhead
    split <;> omega
  have hfirst := Payload.length_le j.toUInt16
  have hsecond := Payload.length_le k.toUInt16
  simp only [token, Payload.wireLength] at hlength
  rw [Payload.toNat_toUInt16 (by omega), Payload.toNat_toUInt16 (by omega)] at hlength
  exact Payload.length_inj hjk hk hj (by omega)

def LatePayload (serial : Nat) (payload : List UInt8) : Prop :=
  ∃ j ttl, 1 ≤ j ∧ j ≤ serial ∧ payload = Payload.bytes j.toUInt16 ttl

def Late (serial : Nat) : Event → Prop
  | .packet data source =>
      ∃ reply j, Packet.Reply.ofDatagram data source = .ok reply ∧ 1 ≤ j ∧ j ≤ serial ∧
        reply.token = x.token j
  | .pong payload => LatePayload serial payload
  | _ => False

def Stray (serial : Nat) (e : Event) : Prop := e.Foreign x.flow x.opened ∨ x.Late serial e

theorem LatePayload.ne {serial k : Nat} {payload : List UInt8} {ttl : UInt8}
    (h : LatePayload serial payload) (hk : serial < k) (hmax : k ≤ 96) :
    payload ≠ Payload.bytes k.toUInt16 ttl := by
  obtain ⟨j, ttl', hj, hjs, rfl⟩ := h
  intro hsame
  have hserial := congrArg UInt16.toNat (Payload.serial_of_bytes hsame)
  rw [Payload.toNat_toUInt16 (by omega), Payload.toNat_toUInt16 (by omega)] at hserial
  omega

theorem LatePayload.mono {j k : Nat} {payload : List UInt8} (h : LatePayload j payload)
    (hjk : j ≤ k) : LatePayload k payload := by
  obtain ⟨i, ttl, hi, hij, hpayload⟩ := h
  exact ⟨i, ttl, hi, Nat.le_trans hij hjk, hpayload⟩

variable {x}

theorem Late.mono {j k : Nat} {e : Event} (h : x.Late j e) (hjk : j ≤ k) : x.Late k e := by
  cases e with
  | packet data source =>
      obtain ⟨reply, i, hparse, hi, hij, htoken⟩ := h
      exact ⟨reply, i, hparse, hi, Nat.le_trans hij hjk, htoken⟩
  | pong payload => exact LatePayload.mono h hjk
  | _ => exact h

theorem Stray.mono {j k : Nat} {e : Event} (h : x.Stray j e) (hjk : j ≤ k) : x.Stray k e := by
  rcases h with hforeign | hlate
  · exact .inl hforeign
  · exact .inr (hlate.mono hjk)

theorem ofDatagram_quoting (x : Crossing) (router : Net.Ip) (code : Option UInt8) (serial : Nat)
    (ttl : UInt8) :
    ∃ data, Event.quoting x.flow x.info router (Router.kindOf code) 0
        (Payload.bytes serial.toUInt16 ttl) = .packet data router ∧
      Packet.Reply.ofDatagram data router =
        .ok ⟨router, Router.kindOf code, x.token serial, 1⟩ := by
  refine ⟨_, rfl, ?_⟩
  have hlength : Nat.toUInt16
      ((pingLength x.info (Payload.bytes serial.toUInt16 ttl) + (0 : Int)) % 65536).toNat =
        (x.info.overhead + Payload.wireLength (Payload.length serial.toUInt16)).toUInt16 := by
    rw [pingLength, Payload.length_bytes]
    generalize x.info.overhead + Payload.wireLength (Payload.length serial.toUInt16) = n
    apply UInt16.toNat_inj.mp
    simp only [Nat.toUInt16, UInt16.toNat_ofNat']
    omega
  rw [hlength]
  cases code with
  | none =>
      exact Packet.Reply.ofDatagram_bytes
        (Packet.IcmpError.wellFormed_about _ _ _ (.inl rfl)) router
  | some code =>
      exact Packet.Reply.ofDatagram_bytes
        (Packet.IcmpError.wellFormed_about _ _ _ (.inr rfl)) router

theorem late_reaction {d : Span} {f : List UInt8 → Event} {ttl : Nat}
    (h : (d, f) ∈ x.path.reactions x.flow x.info ttl) {serial : Nat} (hserial : 1 ≤ serial)
    (sent : UInt8) : x.Late serial (f (Payload.bytes serial.toUInt16 sent)) := by
  unfold Path.reactions at h
  split at h
  · cases h
  · rename_i router code delay hrouter
    simp only [List.mem_singleton, Prod.mk.injEq] at h
    obtain ⟨-, rfl⟩ := h
    obtain ⟨data, hquoting, hparse⟩ := x.ofDatagram_quoting router code serial sent
    rw [hquoting]
    exact ⟨_, serial, hparse, hserial, Nat.le_refl _, rfl⟩
  · split at h
    · cases h
    · simp only [List.mem_singleton, Prod.mk.injEq] at h
      obtain ⟨-, rfl⟩ := h
      exact ⟨serial, sent, hserial, Nat.le_refl _, rfl⟩

structure Fair (x : Crossing) : Prop where
  flow : Sender.flowOf x.behaviour = .ok x.flow
  counters : x.behaviour.counters = x.info
  ttlFault : x.behaviour.ttlFault = none
  setTtl : ∀ n ttl, x.behaviour.setTtl n ttl = none
  counted : ∀ n info, x.behaviour.counted n info = info
  statisticsFault : ∀ n, x.behaviour.statisticsFault n = none
  write : ∀ ttl, x.behaviour.write ttl = { reactions := x.path.reactions x.flow x.info ttl }
  timeout : 0 < x.timeout
  short : x.walk.length ≤ 96

end Crossing

end InbandTrace
