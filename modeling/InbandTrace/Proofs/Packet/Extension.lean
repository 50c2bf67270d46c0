import InbandTrace.Proofs.Packet.Layout

namespace InbandTrace.Packet

variable {α β : Type} {data : Bytes}

/-- The verdict of a check on the bytes stands whatever comes behind them, unless it is that there
are too few. -/
structure Steady (check : Bytes → Except Error α) (data : Bytes) : Prop where
  lasts : (∀ needed present, check data ≠ .error (.truncated needed present)) →
    ∀ more, check (data ++ more) = check data
  short : ∀ needed present, check data = .error (.truncated needed present) → present < needed

theorem byteAt_extended {offset : Nat} (h : offset < data.length) (more : Bytes) :
    byteAt (data ++ more) offset = byteAt data offset := by
  simp [byteAt, List.getD, List.getElem?_append_left h]

theorem wordAt_extended {offset : Nat} (h : offset + 1 < data.length) (more : Bytes) :
    wordAt (data ++ more) offset = wordAt data offset := by
  rw [wordAt, wordAt, byteAt_extended (by omega), byteAt_extended h]

theorem addressAt_extended {offset : Nat} (h : offset + 3 < data.length) (more : Bytes) :
    addressAt (data ++ more) offset = addressAt data offset := by
  rw [addressAt, addressAt, byteAt_extended (by omega), byteAt_extended (by omega),
    byteAt_extended (by omega), byteAt_extended h]

namespace Steady

theorem of_same {check : Bytes → Except Error α}
    (hsame : ∀ more, check (data ++ more) = check data)
    (hlong : ∀ needed present, check data ≠ .error (.truncated needed present)) :
    Steady check data :=
  ⟨fun _ => hsame, fun needed present h => absurd h (hlong needed present)⟩

theorem require (length : Nat) : Steady (require · length) data := by
  by_cases hlong : data.length < length
  · have hshort : Packet.require data length = .error (.truncated length data.length) :=
      if_pos hlong
    refine ⟨fun h => absurd hshort (h _ _), ?_⟩
    intro needed present h
    cases hshort.symm.trans h
    exact hlong
  · have hthere : ∀ more, Packet.require (data ++ more) length = .ok () := by
      intro more
      refine if_neg ?_
      rw [List.length_append]
      omega
    have hdata : Packet.require data length = .ok () := if_neg hlong
    refine of_same (fun more => (hthere more).trans hdata.symm) ?_
    intro needed present h
    cases hdata.symm.trans h

theorem bind {first : Bytes → Except Error α} {second : Bytes → α → Except Error β}
    (hfirst : Steady first data)
    (hsecond : ∀ x, first data = .ok x → Steady (second · x) data) :
    Steady (fun d => first d >>= second d) data := by
  cases hx : first data with
  | error e =>
      refine ⟨fun h more => ?_, fun needed present h => ?_⟩
      · have hlast := hfirst.lasts (fun needed present he => h needed present (by rw [he]; rfl))
        simp only [hlast more, hx]
        rfl
      · simp only [hx] at h
        cases h
        exact hfirst.short _ _ hx
  | ok x =>
      have hlast := hfirst.lasts (by simp [hx])
      refine ⟨fun h more => ?_, fun needed present h => ?_⟩
      · simp only [hlast, hx] at h ⊢
        exact (hsecond x hx).lasts h more
      · simp only [hx] at h
        exact (hsecond x hx).short _ _ h

theorem guard {p : Bytes → Prop} [DecidablePred p] {e : Bytes → Error}
    {rest : Bytes → Unit → Except Error α} (hp : ∀ more, p (data ++ more) ↔ p data)
    (he : ∀ more, e (data ++ more) = e data)
    (hlong : ∀ needed present, e data ≠ .truncated needed present)
    (hrest : Steady (rest · ()) data) :
    Steady (fun d => if p d then throw (e d) >>= rest d else rest d ()) data := by
  by_cases hdata : p data
  · have hsame : ∀ more, p (data ++ more) := fun more => (hp more).mpr hdata
    refine of_same ?_ ?_
    · intro more
      simp only [if_pos hdata, if_pos (hsame more), he]
      rfl
    · intro needed present h
      simp only [if_pos hdata] at h
      exact hlong _ _ (Except.error.inj h)
  · have hsame : ∀ more, ¬p (data ++ more) := fun more h => hdata ((hp more).mp h)
    refine ⟨fun h more => ?_, fun needed present h => ?_⟩
    · simp only [if_neg hdata, if_neg (hsame more)] at h ⊢
      exact hrest.lasts h more
    · simp only [if_neg hdata] at h
      exact hrest.short _ _ h

theorem read {read : Bytes → β} {check : β → Bytes → Except Error α}
    (hread : ∀ more, read (data ++ more) = read data) (hcheck : ∀ x, Steady (check x) data) :
    Steady (fun d => check (read d) d) data := by
  refine ⟨fun h more => ?_, (hcheck _).short⟩
  simp only [hread]
  exact (hcheck _).lasts h more

theorem drop {f : Bytes → Except Error α} {n : Nat} (hn : n ≤ data.length)
    (hf : Steady f (data.drop n)) : Steady (fun d => f (d.drop n)) data := by
  refine ⟨fun h more => ?_, hf.short⟩
  simp only [List.drop_append_of_le_length hn]
  exact hf.lasts h more

end Steady

theorem steady_checkIpv4 (data : Bytes) : Steady checkIpv4 data := by
  delta checkIpv4
  refine .bind (.require 20) fun _ hmin => ?_
  have hfirst : ∀ more, byteAt (data ++ more) 0 = byteAt data 0 := by
    have := require_eq_ok_iff.mp hmin
    exact byteAt_extended (by omega)
  have hversion : ∀ more, version (data ++ more) = version data := by simp [version, hfirst]
  have hlength : ∀ more, headerLength (data ++ more) = headerLength data := by
    simp [headerLength, hfirst]
  dsimp only
  refine .guard (by simp [hversion]) (by simp [hversion]) (by simp) ?_
  refine .guard (by simp [hlength]) (by simp [hlength]) (by simp) ?_
  refine .bind (.read hlength fun n => .require n) fun _ _ => .of_same ?_ ?_
  · intro more
    rw [hlength]
  · simp [pure, Except.pure]

theorem steady_quotedProbe (data : Bytes) : Steady quotedProbe data := by
  delta quotedProbe
  refine .bind (steady_checkIpv4 data) fun header hheader => ?_
  obtain ⟨-, -, hmin, hall⟩ := checkIpv4_eq_ok_iff.mp hheader
  have hprotocol : ∀ more, byteAt (data ++ more) 9 = byteAt data 9 := byteAt_extended (by omega)
  dsimp only
  refine .guard (by simp [hprotocol]) (by simp [hprotocol]) (by simp) ?_
  refine .bind (.require (header + 8)) fun _ hsegment => .of_same ?_ (by simp [pure, Except.pure])
  have hlong := require_eq_ok_iff.mp hsegment
  intro more
  rw [addressAt_extended (by omega), addressAt_extended (by omega), wordAt_extended (by omega),
    wordAt_extended (by omega), wordAt_extended (by omega), byteAt_extended (by omega)]

theorem steady_replyKind (hlong : 1 < data.length) :
    Steady (fun d => replyKind (byteAt d 0) (byteAt d 1)) data := by
  refine .of_same (fun more => ?_) (fun needed present h => ?_)
  · rw [byteAt_extended (by omega), byteAt_extended hlong]
  · unfold replyKind at h
    split at h
    · cases h
    split at h <;> cases h

theorem Reply.steady_ofDatagram (data : Bytes) (responder : Net.Ip) :
    Steady (ofDatagram · responder) data := by
  delta ofDatagram
  refine .bind (steady_checkIpv4 data) fun header hheader => ?_
  obtain ⟨-, -, hmin, hall⟩ := checkIpv4_eq_ok_iff.mp hheader
  have hprotocol : ∀ more, byteAt (data ++ more) 9 = byteAt data 9 := byteAt_extended (by omega)
  dsimp only
  refine .guard (by simp [hprotocol]) (by simp [hprotocol]) (by simp) ?_
  refine .bind (.drop (f := (Packet.require · 8)) hall (.require 8)) fun _ hicmp => ?_
  have hlong := require_eq_ok_iff.mp hicmp
  refine .bind (.drop (f := fun d => replyKind (byteAt d 0) (byteAt d 1)) hall ?_)
    fun kind _ => ?_
  · exact steady_replyKind (by omega)
  have hquoted := (steady_quotedProbe ((data.drop header).drop 8)).drop hlong
  refine .bind (.drop (f := fun d => quotedProbe (d.drop 8)) hall hquoted) fun probe _ => ?_
  exact .of_same (fun _ => rfl) (by simp [pure, Except.pure])

variable {front rest : Bytes} {start length outer quoted : Nat} {protocol : UInt8}

theorem HeaderAt.length_eq {length' : Nat} {protocol' : UInt8}
    (h : HeaderAt data start length protocol) (h' : HeaderAt data start length' protocol') :
    length = length' := by
  obtain ⟨b, hb, -, hlength⟩ := h.first
  obtain ⟨b', hb', -, hlength'⟩ := h'.first
  rw [hlength, hlength', Option.some.inj (hb.symm.trans hb')]

theorem QuotesTcp.lengths_eq {outer' quoted' : Nat} (h : QuotesTcp data outer quoted)
    (h' : QuotesTcp data outer' quoted') : outer = outer' ∧ quoted = quoted' := by
  obtain rfl := h.header.length_eq h'.header
  exact ⟨rfl, h.original.length_eq h'.original⟩

theorem headerAt_append_iff (hall : start + length ≤ front.length) :
    HeaderAt (front ++ rest) start length protocol ↔ HeaderAt front start length protocol := by
  have hsame : ∀ i < front.length, (front ++ rest)[i]? = front[i]? := fun i hi =>
    List.getElem?_append_left hi
  constructor
  · rintro ⟨hfirst, hmin, -, hprotocol⟩
    rw [hsame _ (by omega)] at hfirst hprotocol
    exact ⟨hfirst, hmin, hall, hprotocol⟩
  · rintro ⟨hfirst, hmin, -, hprotocol⟩
    rw [← hsame _ (by omega)] at hfirst hprotocol
    exact ⟨hfirst, hmin, by rw [List.length_append]; omega, hprotocol⟩

theorem quotesTcp_append_iff (hall : outer + 8 + quoted + 8 ≤ front.length) :
    QuotesTcp (front ++ rest) outer quoted ↔ QuotesTcp front outer quoted := by
  have htype : (front ++ rest)[outer]? = front[outer]? := List.getElem?_append_left (by omega)
  have hlonger : front.length ≤ (front ++ rest).length := by simp
  constructor
  · rintro ⟨hheader, -, hkind, horiginal, -⟩
    exact ⟨(headerAt_append_iff (by omega)).mp hheader, by omega, htype ▸ hkind,
      (headerAt_append_iff (by omega)).mp horiginal, hall⟩
  · rintro ⟨hheader, -, hkind, horiginal, -⟩
    exact ⟨(headerAt_append_iff (by omega)).mpr hheader, by omega, htype.symm ▸ hkind,
      (headerAt_append_iff (by omega)).mpr horiginal, by omega⟩

theorem Reply.exists_quotesTcp {responder : Net.Ip} {reply : Reply}
    (h : ofDatagram data responder = .ok reply) : ∃ outer quoted, QuotesTcp data outer quoted := by
  obtain ⟨outer, probe, hheader, hicmp, hlong, htype, hprobe⟩ := ofDatagram_ok h
  obtain ⟨quoted, horiginal, htcp, hsegment, -⟩ := quotedProbe_eq_ok_iff.mp hprobe
  exact ⟨outer, quoted,
    quotesTcp_iff.mpr ⟨⟨hheader, hicmp⟩, hlong, htype, ⟨horiginal, htcp⟩, hsegment⟩⟩

theorem QuotesTcp.exists_reply (h : QuotesTcp data outer quoted) (responder : Net.Ip) :
    ∃ reply, Reply.ofDatagram data responder = .ok reply := by
  obtain ⟨⟨hheader, hicmp⟩, hlong, htype, ⟨horiginal, htcp⟩, hsegment⟩ := quotesTcp_iff.mp h
  exact ⟨_, Reply.ofDatagram_of_parts hheader hicmp hlong (replyKind_eq_ok_iff.mpr ⟨htype, rfl⟩)
    (quotedProbe_eq_ok_iff.mpr ⟨quoted, horiginal, htcp, hsegment, rfl⟩)⟩

theorem Reply.verdict_of_extension (data : Bytes) (responder : Net.Ip) :
    ((∀ needed present, ofDatagram data responder ≠ .error (.truncated needed present)) →
      ∀ more, ofDatagram (data ++ more) responder = ofDatagram data responder) ∧
    (∀ needed present, ofDatagram data responder = .error (.truncated needed present) →
      present < needed) ∧
    ∀ reply, ofDatagram data responder = .ok reply →
      ∃ outer quoted, QuotesTcp data outer quoted ∧ ∀ front, front <+: data →
        (front.length < outer + 8 + quoted + 8 →
          ∃ needed present, ofDatagram front responder = .error (.truncated needed present)) ∧
        (outer + 8 + quoted + 8 ≤ front.length → ofDatagram front responder = .ok reply) := by
  refine ⟨(steady_ofDatagram data responder).lasts, (steady_ofDatagram data responder).short, ?_⟩
  intro reply hreply
  obtain ⟨outer, quoted, hquotes⟩ := exists_quotesTcp hreply
  refine ⟨outer, quoted, hquotes, ?_⟩
  rintro front ⟨rest, rfl⟩
  have hlasts := (steady_ofDatagram front responder).lasts
  constructor
  · intro hcut
    refine Classical.byContradiction fun hnone => ?_
    have hwhole := fun needed present h => hnone ⟨needed, present, h⟩
    -- a front that is not refused for its length is read like the whole, and so has both headers
    obtain ⟨outer', quoted', hfront⟩ := exists_quotesTcp ((hlasts hwhole rest).symm.trans hreply)
    have hlong := hfront.segment
    obtain ⟨rfl, rfl⟩ := hquotes.lengths_eq ((quotesTcp_append_iff hlong).mpr hfront)
    omega
  · intro hall
    obtain ⟨reply', hfront⟩ := ((quotesTcp_append_iff hall).mp hquotes).exists_reply responder
    rw [← hlasts (by simp [hfront]) rest]
    exact hreply

theorem Reply.verdict_of_padded :
    let data := IcmpError.padded.bytes
    let router : Net.Ip := .v4 ⟨10, 0, 0, 1⟩
    ∃ reply, reply.token.ipLength = 65535 ∧ ofDatagram data router = .ok reply ∧
      (∀ more, ofDatagram (data ++ more) router = .ok reply) ∧
      ofDatagram (data.take 100) router = .ok reply ∧
      ∃ needed present, present < needed ∧
        ofDatagram (data.take 99) router = .error (.truncated needed present) := by
  intro data router
  have hw : IcmpError.padded.WellFormed :=
    ⟨⟨by decide, by decide⟩, rfl, .inr rfl, rfl, ⟨by decide, by decide⟩, rfl, rfl⟩
  have hread : ofDatagram data router = .ok _ := ofDatagram_bytes hw router
  obtain ⟨hlasts, -, hfronts⟩ := Reply.verdict_of_extension data router
  obtain ⟨outer, quoted, hquotes, hfront⟩ := hfronts _ hread
  have hlengths : QuotesTcp data 60 24 :=
    ⟨⟨⟨79, by decide⟩, by decide, by decide, by decide⟩, by decide, .inr (by decide),
      ⟨⟨70, by decide⟩, by decide, by decide, by decide⟩, by decide⟩
  obtain ⟨rfl, rfl⟩ := hquotes.lengths_eq hlengths
  obtain ⟨hcut, -⟩ := hfront (data.take 99) (List.take_prefix ..)
  obtain ⟨-, hwhole⟩ := hfront (data.take 100) (List.take_prefix ..)
  obtain ⟨needed, present, hshort⟩ := hcut (by decide)
  have hless := (Reply.verdict_of_extension (data.take 99) router).2.1 needed present hshort
  refine ⟨_, rfl, hread, fun more => ?_, hwhole (by decide), needed, present, hless, hshort⟩
  rw [hlasts (by simp [hread]) more, hread]

end InbandTrace.Packet
