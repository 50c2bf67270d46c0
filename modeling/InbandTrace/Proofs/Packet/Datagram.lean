import InbandTrace.Packet.Datagram

namespace InbandTrace

namespace Net

theorem word_bytes (w : UInt16) : word (highByte w) (lowByte w) = w := by
  apply UInt16.toNat_inj.mp
  have hmax := w.toNat_lt
  simp only [word, highByte, lowByte, UInt16.toNat_add, UInt16.toNat_mul, UInt8.toNat_toUInt16,
    UInt16.toNat_toUInt8, UInt16.toNat_div, UInt16.toNat_ofNat, Nat.reducePow, Nat.reduceMod]
  omega

theorem highByte_word (high low : UInt8) : highByte (word high low) = high := by
  apply UInt8.toNat_inj.mp
  have hhigh := high.toNat_lt
  have hlow := low.toNat_lt
  simp only [word, highByte, UInt16.toNat_add, UInt16.toNat_mul, UInt8.toNat_toUInt16,
    UInt16.toNat_toUInt8, UInt16.toNat_div, UInt16.toNat_ofNat, Nat.reducePow, Nat.reduceMod]
  omega

theorem lowByte_word (high low : UInt8) : lowByte (word high low) = low := by
  apply UInt8.toNat_inj.mp
  have hhigh := high.toNat_lt
  have hlow := low.toNat_lt
  simp only [word, lowByte, UInt16.toNat_add, UInt16.toNat_mul, UInt8.toNat_toUInt16,
    UInt16.toNat_toUInt8, UInt16.toNat_ofNat, Nat.reducePow, Nat.reduceMod]
  omega

end Net

namespace Packet

theorem wordBytes_word (high low : UInt8) : wordBytes (Net.word high low) = [high, low] := by
  rw [wordBytes, Net.highByte_word, Net.lowByte_word]

theorem byteAt_append (a b : Bytes) (offset : Nat) :
    byteAt (a ++ b) (a.length + offset) = byteAt b offset := by
  simp [byteAt, List.getD, List.getElem?_append_right]

theorem wordAt_append (a b : Bytes) (offset : Nat) :
    wordAt (a ++ b) (a.length + offset) = wordAt b offset := by
  rw [wordAt, wordAt, byteAt_append, Nat.add_assoc, byteAt_append]

theorem exists_four {n : Nat} {data : Bytes} (h : n + 4 ≤ data.length) :
    ∃ a b c d rest, data = a :: b :: c :: d :: rest ∧ n ≤ rest.length := by
  match data, h with
  | a :: b :: c :: d :: rest, h =>
      exact ⟨a, b, c, d, rest, rfl, by simpa using h⟩

structure Ipv4Header.WellFormed (h : Ipv4Header) : Prop where
  aligned : h.options.length % 4 = 0
  fits : h.options.length ≤ 40

namespace Ipv4Header

theorem length_bytes (h : Ipv4Header) : h.bytes.length = 20 + h.options.length := by
  simp [bytes, wordBytes, Net.Ipv4.bytes]
  omega

theorem toNat_firstByte {h : Ipv4Header} (hw : h.WellFormed) :
    h.firstByte.toNat = 64 + (5 + h.options.length / 4) := by
  have hfits := hw.fits
  simp only [firstByte, UInt8.toNat_add, UInt8.toNat_ofNat, Nat.toUInt8, UInt8.toNat_ofNat']
  omega

theorem byteAt_zero (h : Ipv4Header) (rest : Bytes) :
    byteAt (h.bytes ++ rest) 0 = h.firstByte := rfl

theorem byteAt_protocol (h : Ipv4Header) (rest : Bytes) :
    byteAt (h.bytes ++ rest) 9 = h.protocol := rfl

theorem byteAt_ttl (h : Ipv4Header) (rest : Bytes) : byteAt (h.bytes ++ rest) 8 = h.ttl := rfl

theorem wordAt_totalLength (h : Ipv4Header) (rest : Bytes) :
    wordAt (h.bytes ++ rest) 2 = h.totalLength :=
  Net.word_bytes h.totalLength

theorem addressAt_src (h : Ipv4Header) (rest : Bytes) :
    addressAt (h.bytes ++ rest) 12 = h.src := rfl

theorem addressAt_dst (h : Ipv4Header) (rest : Bytes) :
    addressAt (h.bytes ++ rest) 16 = h.dst := rfl

variable {h : Ipv4Header} (hw : h.WellFormed) (rest : Bytes)

include hw

theorem version_bytes : version (h.bytes ++ rest) = 4 := by
  have hfirst := toNat_firstByte hw
  have hfits := hw.fits
  apply UInt8.toNat_inj.mp
  simp only [version, byteAt_zero, UInt8.toNat_div, hfirst, UInt8.toNat_ofNat, Nat.reducePow,
    Nat.reduceMod]
  omega

theorem headerLength_bytes : headerLength (h.bytes ++ rest) = h.bytes.length := by
  have hfirst := toNat_firstByte hw
  have haligned := hw.aligned
  have hfits := hw.fits
  simp only [headerLength, byteAt_zero, UInt8.toNat_mod, hfirst, UInt8.toNat_ofNat, Nat.reducePow,
    Nat.reduceMod, length_bytes]
  omega

theorem checkIpv4_bytes : checkIpv4 (h.bytes ++ rest) = .ok h.bytes.length := by
  have hversion := version_bytes hw rest
  have hlength := headerLength_bytes hw rest
  have htwenty : 20 ≤ h.bytes.length := by
    rw [length_bytes]
    omega
  have hall : h.bytes.length ≤ (h.bytes ++ rest).length := by simp
  have hmin : ¬(h.bytes ++ rest).length < 20 := Nat.not_lt.mpr (Nat.le_trans htwenty hall)
  simp only [checkIpv4, require, hversion, hlength, if_neg hmin, if_neg (Nat.not_lt.mpr htwenty),
    if_neg (Nat.not_lt.mpr hall), bind, Except.bind, pure, Except.pure, ne_eq, not_true_eq_false,
    if_false]

end Ipv4Header

theorem checkIpv4_ok {data : Bytes} {n : Nat} (h : checkIpv4 data = .ok n) :
    20 ≤ data.length ∧ version data = 4 ∧ 20 ≤ headerLength data ∧
      headerLength data ≤ data.length ∧ n = headerLength data := by
  unfold checkIpv4 require at h
  simp only [bind, Except.bind, pure, Except.pure, throw, throwThe, MonadExceptOf.throw] at h
  split at h
  · cases h
  rename_i hmin
  split at hmin
  · cases hmin
  split at h
  · cases h
  split at h
  · cases h
  split at h
  · cases h
  rename_i hall
  split at hall
  · cases hall
  simp only [Except.ok.injEq] at h
  refine ⟨?_, ?_, ?_, ?_, h.symm⟩
  · omega
  · simp_all
  · omega
  · omega

theorem firstByte_of_version {first : UInt8} {n : Nat} (hversion : first / 16 = 4)
    (hlength : 20 + n = (first % 16).toNat * 4) : 64 + (5 + n / 4).toUInt8 = first := by
  have hfirst := first.toNat_lt
  have hfour := congrArg UInt8.toNat hversion
  simp only [UInt8.toNat_div, UInt8.toNat_mod, UInt8.toNat_ofNat, Nat.reducePow, Nat.reduceMod]
    at hfour hlength
  apply UInt8.toNat_inj.mp
  simp only [UInt8.toNat_add, UInt8.toNat_ofNat, Nat.toUInt8, UInt8.toNat_ofNat', Nat.reducePow,
    Nat.reduceMod]
  omega

theorem exists_header {data : Bytes} {n : Nat} (h : checkIpv4 data = .ok n) :
    ∃ header : Ipv4Header, header.WellFormed ∧ data = header.bytes ++ data.drop n ∧
      n = header.bytes.length := by
  obtain ⟨hmin, hversion, hlength, hall, rfl⟩ := checkIpv4_ok h
  obtain ⟨b0, b1, b2, b3, rest₁, rfl, h₁⟩ := exists_four (n := 16) hmin
  obtain ⟨b4, b5, b6, b7, rest₂, rfl, h₂⟩ := exists_four (n := 12) h₁
  obtain ⟨b8, b9, b10, b11, rest₃, rfl, h₃⟩ := exists_four (n := 8) h₂
  obtain ⟨b12, b13, b14, b15, rest₄, rfl, h₄⟩ := exists_four (n := 4) h₃
  obtain ⟨b16, b17, b18, b19, rest, rfl, -⟩ := exists_four (n := 0) h₄
  have hbyte : ∀ tail : Bytes, byteAt (b0 :: tail) 0 = b0 := fun _ => rfl
  simp only [version, headerLength, hbyte, List.length_cons] at hversion hlength hall ⊢
  obtain ⟨k, hk⟩ := Nat.exists_eq_add_of_le hlength
  have htake : (rest.take k).length = k := by
    rw [List.length_take]
    omega
  have hdrop : ∀ a b c d : UInt8, ∀ (m : Nat) (tail : Bytes),
      (a :: b :: c :: d :: tail).drop (4 + m) = tail.drop m := by
    intro a b c d m tail
    rw [Nat.add_comm]
    rfl
  refine ⟨{
    service := b1, totalLength := Net.word b2 b3, identification := Net.word b4 b5,
    fragment := Net.word b6 b7, ttl := b8, protocol := b9, checksum := Net.word b10 b11,
    src := ⟨b12, b13, b14, b15⟩, dst := ⟨b16, b17, b18, b19⟩, options := rest.take k },
    ⟨?_, ?_⟩, ?_, ?_⟩
  · rw [htake]
    omega
  · have hfirst := (b0 % 16).toNat_lt
    have hmod : (b0 % 16).toNat < 16 := by
      simp only [UInt8.toNat_mod, UInt8.toNat_ofNat, Nat.reducePow, Nat.reduceMod]
      exact Nat.mod_lt _ (by omega)
    rw [htake]
    omega
  · have hfirst := firstByte_of_version hversion hk.symm
    rw [hk, show 20 + k = 4 + (4 + (4 + (4 + (4 + k)))) by omega]
    simp only [hdrop, Ipv4Header.bytes, Ipv4Header.firstByte, htake, hfirst, wordBytes_word,
      Net.Ipv4.bytes, List.cons_append, List.nil_append, List.take_append_drop]
  · rw [Ipv4Header.length_bytes, htake, hk]

structure IcmpError.WellFormed (e : IcmpError) : Prop where
  outer : e.outer.WellFormed
  icmp : e.outer.protocol = 1
  type : e.type = 11 ∨ e.type = 3
  unused : e.unused.length = 4
  quoted : e.quoted.WellFormed
  tcp : e.quoted.protocol = 6
  sequence : e.sequence.length = 4

theorem IcmpError.wellFormed_about (token : Token) (router : Net.Ip) {type : UInt8} (code : UInt8)
    (h : type = 11 ∨ type = 3) : (about token router type code).WellFormed := by
  have hplain : ∀ header : Ipv4Header, header.options = [] → header.WellFormed := by
    intro header hnone
    exact ⟨by rw [hnone]; rfl, by rw [hnone]; exact Nat.zero_le _⟩
  exact ⟨hplain _ rfl, rfl, h, rfl, hplain _ rfl, rfl, rfl⟩

namespace IcmpError

def kind (e : IcmpError) : ReplyKind :=
  if e.type = 11 then .timeExceeded else .unreachable e.code

def token (e : IcmpError) : Token :=
  ⟨⟨.v4 e.quoted.src e.srcPort, .v4 e.quoted.dst e.dstPort⟩, e.quoted.totalLength⟩

def segment (e : IcmpError) : Bytes :=
  wordBytes e.srcPort ++ wordBytes e.dstPort ++ e.sequence ++ e.trailing

theorem bytes_eq (e : IcmpError) :
    e.bytes = e.outer.bytes ++ ([e.type, e.code] ++ wordBytes e.checksum ++ e.unused ++
      (e.quoted.bytes ++ e.segment)) := by
  simp [bytes, segment]

variable {e : IcmpError} (hw : e.WellFormed)

include hw

theorem length_segment : 8 ≤ e.segment.length := by
  have hsequence := hw.sequence
  simp [segment, wordBytes]
  omega

theorem quotedProbe_segment :
    quotedProbe (e.quoted.bytes ++ e.segment) = .ok (e.token, e.quoted.ttl) := by
  have hsegment := length_segment hw
  have hall : ¬(e.quoted.bytes ++ e.segment).length < e.quoted.bytes.length + 8 := by
    rw [List.length_append]
    omega
  have hsrc : wordAt (e.quoted.bytes ++ e.segment) e.quoted.bytes.length = e.srcPort :=
    (wordAt_append e.quoted.bytes e.segment 0).trans (Net.word_bytes e.srcPort)
  have hdst : wordAt (e.quoted.bytes ++ e.segment) (e.quoted.bytes.length + 2) = e.dstPort :=
    (wordAt_append e.quoted.bytes e.segment 2).trans (Net.word_bytes e.dstPort)
  simp only [quotedProbe, Ipv4Header.checkIpv4_bytes hw.quoted, Ipv4Header.byteAt_protocol, hw.tcp,
    require, if_neg hall, hsrc, hdst, Ipv4Header.addressAt_src, Ipv4Header.addressAt_dst,
    Ipv4Header.wordAt_totalLength, Ipv4Header.byteAt_ttl, token, bind, Except.bind, pure,
    Except.pure, ne_eq, not_true_eq_false, if_false]

theorem replyKind_type : replyKind e.type e.code = .ok e.kind := by
  rcases hw.type with htype | htype
  · simp [replyKind, kind, htype]
  · simp [replyKind, kind, htype]

end IcmpError

theorem Reply.ofDatagram_bytes {e : IcmpError} (hw : e.WellFormed) (responder : Net.Ip) :
    Reply.ofDatagram e.bytes responder = .ok ⟨responder, e.kind, e.token, e.quoted.ttl⟩ := by
  have hicmp : ∀ tail : Bytes, ([e.type, e.code] ++ wordBytes e.checksum ++ e.unused ++ tail).drop 8
      = tail := by
    intro tail
    refine List.drop_left' ?_
    simp [wordBytes, hw.unused]
  have hlong : ¬([e.type, e.code] ++ wordBytes e.checksum ++ e.unused ++
      (e.quoted.bytes ++ e.segment)).length < 8 := by
    simp [wordBytes, hw.unused]
  have htype : ∀ tail : Bytes,
      byteAt ([e.type, e.code] ++ wordBytes e.checksum ++ e.unused ++ tail) 0 = e.type :=
    fun _ => rfl
  have hcode : ∀ tail : Bytes,
      byteAt ([e.type, e.code] ++ wordBytes e.checksum ++ e.unused ++ tail) 1 = e.code :=
    fun _ => rfl
  simp only [ofDatagram, IcmpError.bytes_eq, Ipv4Header.checkIpv4_bytes hw.outer,
    Ipv4Header.byteAt_protocol, hw.icmp, List.drop_left, require, if_neg hlong, htype, hcode,
    IcmpError.replyKind_type hw, hicmp, IcmpError.quotedProbe_segment hw, bind, Except.bind, pure,
    Except.pure, ne_eq, not_true_eq_false, if_false]

theorem quotedProbe_ok {data : Bytes} {answer : Token × UInt8} (h : quotedProbe data = .ok answer) :
    ∃ n, checkIpv4 data = .ok n ∧ byteAt data 9 = 6 ∧ n + 8 ≤ data.length := by
  unfold quotedProbe at h
  simp only [bind, Except.bind, throw, throwThe, MonadExceptOf.throw] at h
  split at h
  · cases h
  rename_i n hheader
  split at h
  · cases h
  rename_i htcp
  split at h
  · cases h
  rename_i hlong
  unfold require at hlong
  split at hlong
  · cases hlong
  refine ⟨n, hheader, ?_, ?_⟩
  · simpa using htcp
  · omega

theorem Reply.ofDatagram_ok {data : Bytes} {responder : Net.Ip} {reply : Reply}
    (h : Reply.ofDatagram data responder = .ok reply) :
    ∃ n answer, checkIpv4 data = .ok n ∧ byteAt data 9 = 1 ∧ 8 ≤ (data.drop n).length ∧
      (byteAt (data.drop n) 0 = 11 ∨ byteAt (data.drop n) 0 = 3) ∧
      quotedProbe ((data.drop n).drop 8) = .ok answer := by
  unfold ofDatagram at h
  simp only [bind, Except.bind, throw, throwThe, MonadExceptOf.throw] at h
  split at h
  · cases h
  rename_i n hheader
  split at h
  · cases h
  rename_i hicmp
  split at h
  · cases h
  rename_i hlong
  split at h
  · cases h
  rename_i kind hkind
  split at h
  · cases h
  rename_i answer hquoted
  unfold require at hlong
  split at hlong
  · cases hlong
  refine ⟨n, answer, hheader, ?_, ?_, ?_, hquoted⟩
  · simpa using hicmp
  · omega
  · unfold replyKind at hkind
    split at hkind
    · exact .inl ‹_›
    split at hkind
    · exact .inr ‹_›
    · cases hkind

theorem Reply.exists_error {data : Bytes} {responder : Net.Ip} {reply : Reply}
    (h : Reply.ofDatagram data responder = .ok reply) :
    ∃ e : IcmpError, e.WellFormed ∧ data = e.bytes := by
  obtain ⟨n, answer, hheader, hicmp, hlong, htype, hquoted⟩ := ofDatagram_ok h
  obtain ⟨outer, houter, hdata, hn⟩ := exists_header hheader
  rw [hdata, Ipv4Header.byteAt_protocol] at hicmp
  generalize data.drop n = icmp at hlong htype hquoted hdata
  obtain ⟨type, code, c, d, rest, rfl, hrest⟩ := exists_four (n := 4) hlong
  obtain ⟨u0, u1, u2, u3, quoted, rfl, -⟩ := exists_four (n := 0) hrest
  obtain ⟨m, hinner, htcp, hsegment⟩ := quotedProbe_ok hquoted
  obtain ⟨header, hheader', hsplit, hm⟩ := exists_header hinner
  have hquote : quoted = header.bytes ++ quoted.drop m := hsplit
  rw [hsplit, Ipv4Header.byteAt_protocol] at htcp
  have hlength : 8 ≤ (quoted.drop m).length := by
    rw [List.length_drop]
    change m + 8 ≤ quoted.length at hsegment
    omega
  generalize quoted.drop m = segment at hquote hlength
  obtain ⟨p0, p1, p2, p3, tail, rfl, htail⟩ := exists_four (n := 4) hlength
  obtain ⟨s0, s1, s2, s3, trailing, rfl, -⟩ := exists_four (n := 0) htail
  refine ⟨⟨outer, type, code, Net.word c d, [u0, u1, u2, u3], header, Net.word p0 p1,
    Net.word p2 p3, [s0, s1, s2, s3], trailing⟩,
    ⟨houter, hicmp, htype, rfl, hheader', htcp, rfl⟩, ?_⟩
  rw [hdata, hquote]
  simp [IcmpError.bytes, wordBytes_word]

theorem Reply.ofDatagram_eq_ok_iff {data : Bytes} {responder : Net.Ip} {reply : Reply} :
    Reply.ofDatagram data responder = .ok reply ↔
      ∃ e : IcmpError, e.WellFormed ∧ data = e.bytes ∧
        reply = ⟨responder, e.kind, e.token, e.quoted.ttl⟩ := by
  constructor
  · intro h
    obtain ⟨e, hw, rfl⟩ := exists_error h
    rw [ofDatagram_bytes hw] at h
    exact ⟨e, hw, rfl, (Except.ok.inj h).symm⟩
  · rintro ⟨e, hw, rfl, rfl⟩
    exact ofDatagram_bytes hw responder

end Packet

end InbandTrace
