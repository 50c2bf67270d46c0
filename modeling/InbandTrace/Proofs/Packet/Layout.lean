import InbandTrace.Proofs.Packet.Datagram

namespace InbandTrace.Packet

structure HeaderAt (data : Bytes) (start length : Nat) (protocol : UInt8) : Prop where
  first : ∃ b, data[start]? = some b ∧ b.toNat / 16 = 4 ∧ length = 4 * (b.toNat % 16)
  minimal : 20 ≤ length
  complete : start + length ≤ data.length
  protocol : data[start + 9]? = some protocol

/-- The bytes are an ICMP error about a TCP segment, behind an IPv4 header of `outer` bytes and with
a quoted one of `quoted` bytes. -/
structure QuotesTcp (data : Bytes) (outer quoted : Nat) : Prop where
  header : HeaderAt data 0 outer 1
  icmp : outer + 8 ≤ data.length
  type : data[outer]? = some 11 ∨ data[outer]? = some 3
  original : HeaderAt data (outer + 8) quoted 6
  segment : outer + 8 + quoted + 8 ≤ data.length

def Reply.readAt (data : Bytes) (responder : Net.Ip) (outer quoted : Nat) : Reply :=
  let original := outer + 8
  let segment := original + quoted
  { responder := responder
    kind := if byteAt data outer = 11 then .timeExceeded else .unreachable (byteAt data (outer + 1))
    token :=
      { flow :=
          { src := .v4 (addressAt data (original + 12)) (wordAt data segment)
            dst := .v4 (addressAt data (original + 16)) (wordAt data (segment + 2)) }
        ipLength := wordAt data (original + 2) }
    quotedTtl := byteAt data (original + 8) }

section

variable (data : Bytes) (n offset : Nat)

theorem byteAt_drop : byteAt (data.drop n) offset = byteAt data (n + offset) := by
  simp [byteAt, List.getD]

theorem wordAt_drop : wordAt (data.drop n) offset = wordAt data (n + offset) := by
  simp only [wordAt, byteAt_drop, Nat.add_assoc]

theorem addressAt_drop : addressAt (data.drop n) offset = addressAt data (n + offset) := by
  simp only [addressAt, byteAt_drop, Nat.add_assoc]

end

variable {data : Bytes} {responder : Net.Ip}

theorem getElem?_eq_some_byteAt_iff {n : Nat} {b : UInt8} (h : n < data.length) :
    data[n]? = some b ↔ byteAt data n = b := by
  simp [byteAt, List.getD, List.getElem?_eq_getElem h]

theorem require_eq_ok_iff {n : Nat} : require data n = .ok () ↔ n ≤ data.length := by
  unfold require
  split
  · simp only [reduceCtorEq, false_iff]
    omega
  · simp only [true_iff]
    omega

theorem version_eq_four_iff : version data = 4 ↔ (byteAt data 0).toNat / 16 = 4 := by
  rw [version, ← UInt8.toNat_inj, UInt8.toNat_div]
  rfl

theorem headerLength_eq : headerLength data = 4 * ((byteAt data 0).toNat % 16) := by
  rw [headerLength, UInt8.toNat_mod, Nat.mul_comm]
  rfl

theorem checkIpv4_eq_ok_iff {n : Nat} :
    checkIpv4 data = .ok n ↔ version data = 4 ∧ n = headerLength data ∧ 20 ≤ n ∧
      n ≤ data.length := by
  constructor
  · intro h
    obtain ⟨-, hversion, hlength, hall, rfl⟩ := checkIpv4_ok h
    exact ⟨hversion, rfl, hlength, hall⟩
  · rintro ⟨hversion, rfl, hlength, hall⟩
    have hmin := require_eq_ok_iff.mpr (Nat.le_trans hlength hall)
    simp only [checkIpv4, hmin, require_eq_ok_iff.mpr hall, hversion,
      if_neg (Nat.not_lt.mpr hlength), bind, Except.bind, pure, Except.pure, ne_eq,
      not_true_eq_false, if_false]

theorem headerAt_iff {start n : Nat} {protocol : UInt8} :
    HeaderAt data start n protocol ↔
      checkIpv4 (data.drop start) = .ok n ∧ byteAt (data.drop start) 9 = protocol := by
  have hfirst : byteAt (data.drop start) 0 = byteAt data start := byteAt_drop data start 0
  rw [checkIpv4_eq_ok_iff, version_eq_four_iff, headerLength_eq, hfirst, byteAt_drop,
    List.length_drop]
  constructor
  · rintro ⟨⟨b, hb, hversion, hlength⟩, hmin, hall, hprotocol⟩
    rw [getElem?_eq_some_byteAt_iff (by omega)] at hb hprotocol
    rw [hb]
    exact ⟨⟨hversion, hlength, hmin, by omega⟩, hprotocol⟩
  · rintro ⟨⟨hversion, hlength, hmin, hall⟩, hprotocol⟩
    refine ⟨⟨_, (getElem?_eq_some_byteAt_iff (by omega)).mpr rfl, hversion, hlength⟩, hmin,
      by omega, (getElem?_eq_some_byteAt_iff (by omega)).mpr hprotocol⟩

theorem replyKind_eq_ok_iff {type code : UInt8} {kind : ReplyKind} :
    replyKind type code = .ok kind ↔
      (type = 11 ∨ type = 3) ∧ kind = if type = 11 then .timeExceeded else .unreachable code := by
  unfold replyKind
  split
  · rename_i h
    simp [h, eq_comm]
  · rename_i h
    split
    · rename_i h'
      simp [h', eq_comm]
    · rename_i h'
      simp [h, h']

def probeAt (quoted : Bytes) (header : Nat) : Token × UInt8 :=
  (⟨⟨.v4 (addressAt quoted 12) (wordAt quoted header),
      .v4 (addressAt quoted 16) (wordAt quoted (header + 2))⟩, wordAt quoted 2⟩, byteAt quoted 8)

theorem quotedProbe_eq_ok_iff {probe : Token × UInt8} :
    quotedProbe data = .ok probe ↔ ∃ n, checkIpv4 data = .ok n ∧ byteAt data 9 = 6 ∧
      n + 8 ≤ data.length ∧ probe = probeAt data n := by
  have hread : ∀ {n}, checkIpv4 data = .ok n → byteAt data 9 = 6 → n + 8 ≤ data.length →
      quotedProbe data = .ok (probeAt data n) := by
    intro n hheader htcp hsegment
    simp only [quotedProbe, hheader, htcp, require_eq_ok_iff.mpr hsegment, bind, Except.bind, pure,
      Except.pure, ne_eq, not_true_eq_false, if_false]
    rfl
  constructor
  · intro h
    obtain ⟨n, hheader, htcp, hsegment⟩ := quotedProbe_ok h
    rw [hread hheader htcp hsegment] at h
    exact ⟨n, hheader, htcp, hsegment, (Except.ok.inj h).symm⟩
  · rintro ⟨n, hheader, htcp, hsegment, rfl⟩
    exact hread hheader htcp hsegment

theorem Reply.ofDatagram_of_parts {n : Nat} {kind : ReplyKind} {probe : Token × UInt8}
    (hheader : checkIpv4 data = .ok n) (hicmp : byteAt data 9 = 1)
    (hlong : 8 ≤ (data.drop n).length)
    (hkind : replyKind (byteAt (data.drop n) 0) (byteAt (data.drop n) 1) = .ok kind)
    (hquoted : quotedProbe ((data.drop n).drop 8) = .ok probe) :
    ofDatagram data responder = .ok ⟨responder, kind, probe.1, probe.2⟩ := by
  simp only [ofDatagram, hheader, hicmp, require_eq_ok_iff.mpr hlong, hkind, hquoted, bind,
    Except.bind, pure, Except.pure, ne_eq, not_true_eq_false, if_false]

theorem Reply.readAt_eq (outer quoted : Nat) :
    readAt data responder outer quoted =
      ⟨responder,
        if byteAt (data.drop outer) 0 = 11 then .timeExceeded
          else .unreachable (byteAt (data.drop outer) 1),
        (probeAt ((data.drop outer).drop 8) quoted).1,
        (probeAt ((data.drop outer).drop 8) quoted).2⟩ := by
  simp only [readAt, probeAt, List.drop_drop, byteAt_drop, wordAt_drop, addressAt_drop,
    Nat.add_zero, Nat.add_assoc]

theorem quotesTcp_iff {outer quoted : Nat} :
    QuotesTcp data outer quoted ↔
      (checkIpv4 data = .ok outer ∧ byteAt data 9 = 1) ∧ 8 ≤ (data.drop outer).length ∧
        (byteAt (data.drop outer) 0 = 11 ∨ byteAt (data.drop outer) 0 = 3) ∧
        (checkIpv4 ((data.drop outer).drop 8) = .ok quoted ∧
          byteAt ((data.drop outer).drop 8) 9 = 6) ∧
        quoted + 8 ≤ ((data.drop outer).drop 8).length := by
  have houter : HeaderAt data 0 outer 1 ↔ checkIpv4 data = .ok outer ∧ byteAt data 9 = 1 :=
    headerAt_iff
  have hquoted : HeaderAt data (outer + 8) quoted 6 ↔
      checkIpv4 (data.drop (outer + 8)) = .ok quoted ∧ byteAt (data.drop (outer + 8)) 9 = 6 :=
    headerAt_iff
  rw [List.drop_drop, ← houter, ← hquoted, List.length_drop, List.length_drop, byteAt_drop,
    Nat.add_zero]
  constructor
  · rintro ⟨hheader, hicmp, htype, horiginal, hsegment⟩
    have hthere : outer < data.length := by omega
    rw [getElem?_eq_some_byteAt_iff hthere, getElem?_eq_some_byteAt_iff hthere] at htype
    exact ⟨hheader, by omega, htype, horiginal, by omega⟩
  · rintro ⟨hheader, hicmp, htype, horiginal, hsegment⟩
    have hthere : outer < data.length := by omega
    rw [← getElem?_eq_some_byteAt_iff hthere, ← getElem?_eq_some_byteAt_iff hthere] at htype
    exact ⟨hheader, by omega, htype, horiginal, by omega⟩

theorem Reply.ofDatagram_eq_readAt (responder : Net.Ip) :
    (∀ data reply, ofDatagram data responder = .ok reply ↔
      ∃ outer quoted, QuotesTcp data outer quoted ∧
        reply = readAt data responder outer quoted) ∧
    ∀ e : IcmpError, e.WellFormed →
      ofDatagram e.bytes responder = .ok ⟨responder, e.kind, e.token, e.quoted.ttl⟩ := by
  refine ⟨?_, fun e hw => ofDatagram_bytes hw responder⟩
  intro data reply
  have hread : ∀ {outer quoted}, QuotesTcp data outer quoted →
      ofDatagram data responder = .ok (readAt data responder outer quoted) := by
    intro outer quoted h
    obtain ⟨⟨hheader, hicmp⟩, hlong, htype, ⟨horiginal, htcp⟩, hsegment⟩ := quotesTcp_iff.mp h
    rw [readAt_eq]
    exact ofDatagram_of_parts hheader hicmp hlong (replyKind_eq_ok_iff.mpr ⟨htype, rfl⟩)
      (quotedProbe_eq_ok_iff.mpr ⟨quoted, horiginal, htcp, hsegment, rfl⟩)
  constructor
  · intro h
    obtain ⟨outer, probe, hheader, hicmp, hlong, htype, hprobe⟩ := ofDatagram_ok h
    obtain ⟨quoted, horiginal, htcp, hsegment, -⟩ := quotedProbe_eq_ok_iff.mp hprobe
    have hquotes : QuotesTcp data outer quoted :=
      quotesTcp_iff.mpr ⟨⟨hheader, hicmp⟩, hlong, htype, ⟨horiginal, htcp⟩, hsegment⟩
    rw [hread hquotes] at h
    exact ⟨outer, quoted, hquotes, (Except.ok.inj h).symm⟩
  · rintro ⟨outer, quoted, hquotes, rfl⟩
    exact hread hquotes

def IcmpError.padded : IcmpError where
  outer :=
    { totalLength := 100, ttl := 64, protocol := 1, src := ⟨10, 0, 0, 1⟩, dst := ⟨192, 0, 2, 10⟩,
      options := List.replicate 40 7 }
  type := 3
  code := 13
  quoted :=
    { totalLength := 65535, ttl := 1, protocol := 6, src := ⟨192, 0, 2, 10⟩,
      dst := ⟨198, 51, 100, 20⟩, options := [1, 1, 1, 0] }
  srcPort := 443
  dstPort := 51234
  trailing := [0, 255, 69]

theorem Reply.ofDatagram_padded :
    IcmpError.padded.WellFormed ∧
      Reply.ofDatagram IcmpError.padded.bytes (.v4 ⟨10, 0, 0, 1⟩) = .ok
        { responder := .v4 ⟨10, 0, 0, 1⟩
          kind := .unreachable 13
          token := ⟨⟨.v4 ⟨192, 0, 2, 10⟩ 443, .v4 ⟨198, 51, 100, 20⟩ 51234⟩, 65535⟩
          quotedTtl := 1 } ∧
      ∃ outer quoted, QuotesTcp IcmpError.padded.bytes outer quoted := by
  have hw : IcmpError.padded.WellFormed :=
    ⟨⟨by decide, by decide⟩, rfl, .inr rfl, rfl, ⟨by decide, by decide⟩, rfl, rfl⟩
  obtain ⟨hiff, hbuilt⟩ := Reply.ofDatagram_eq_readAt (.v4 ⟨10, 0, 0, 1⟩)
  obtain ⟨outer, quoted, hquotes, -⟩ := (hiff _ _).mp (hbuilt _ hw)
  exact ⟨hw, hbuilt _ hw, outer, quoted, hquotes⟩

end InbandTrace.Packet
