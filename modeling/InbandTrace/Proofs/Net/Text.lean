import InbandTrace.Net.Parser
import InbandTrace.Proofs.Json.Digits
import InbandTrace.Proofs.Packet.Datagram

namespace InbandTrace

namespace Text

theorem spanDigits_of_map {digit? : Char → Option Nat} {s rest : List Char} {ds : List Nat}
    (hs : s.map digit? = ds.map some) (hrest : ∀ c ∈ rest.head?, digit? c = none) :
    spanDigits digit? (s ++ rest) = (ds, rest) := by
  induction s generalizing ds with
  | nil =>
      obtain rfl : ds = [] := by simpa using hs.symm
      cases rest with
      | nil => rfl
      | cons c rest => simp [spanDigits, hrest c rfl]
  | cons c s ih =>
      cases ds with
      | nil => cases hs
      | cons d ds =>
          obtain ⟨hc, hs⟩ := List.cons.inj hs
          simp [spanDigits, hc, ih hs]

theorem exists_digits_hexadecimal (n : Nat) : ∃ ds : List Nat,
    (hexadecimal n).map hexDigit? = ds.map some ∧ ofDigits 16 ds = n := by
  induction n using Nat.strongRecOn with
  | ind n ih =>
      have hdigit : ∀ d < 16, hexDigit? (Nat.digitChar d) = some d := by decide
      by_cases hn : n < 16
      · refine ⟨[n], ?_, by simp [ofDigits]⟩
        rw [hexadecimal, Nat.toDigits_of_lt_base hn]
        simp [hdigit n hn]
      · obtain ⟨ds, hds, hvalue⟩ := ih (n / 16) (by omega)
        refine ⟨ds ++ [n % 16], ?_, ?_⟩
        · rw [hexadecimal, Nat.toDigits_of_base_le (by decide) (by omega), List.map_append,
            List.map_append]
          congr 1
          simp [hdigit (n % 16) (Nat.mod_lt _ (by decide))]
        · rw [ofDigits, List.foldl_append]
          change ofDigits 16 ds * 16 + n % 16 = n
          rw [hvalue]
          omega

end Text

namespace Net

open Text

def Ends (rest : List Char) : Prop := ∀ c ∈ rest.head?, hexDigit? c = none ∧ c ≠ '.'

def Closes (rest : List Char) : Prop := Ends rest ∧ ∀ c ∈ rest.head?, c ≠ ':'

section

variable {rest : List Char}

theorem isDigit_of_hexDigit? {c : Char} (h : hexDigit? c = none) : c.isDigit = false := by
  by_contra hdigit
  rw [hexDigit?, if_pos (by simpa using hdigit)] at h
  cases h

theorem ends_cons {c : Char} (hdigit : hexDigit? c = none) (hdot : c ≠ '.') :
    Ends (c :: rest) := by
  rintro _ ⟨⟩
  exact ⟨hdigit, hdot⟩

theorem closes_nil : Closes [] := ⟨nofun, nofun⟩

theorem ends_colon (rest : List Char) : Ends (':' :: rest) := ends_cons rfl (by decide)

theorem spanDigits_of_head? (h : ∀ c ∈ rest.head?, c.isDigit = false) :
    spanDigits decimalDigit? rest = ([], rest) :=
  spanDigits_append (s := []) nofun h

theorem octet_of_head? (h : ∀ c ∈ rest.head?, c.isDigit = false) : octet rest = none := by
  simp [octet, spanDigits_of_head? h]

theorem group_of_ends (h : Ends rest) : group rest = none := by
  have hspan : spanDigits hexDigit? ([] ++ rest) = ([], rest) :=
    spanDigits_of_map rfl fun c hc => (h c hc).1
  rw [List.nil_append] at hspan
  simp [group, hspan]

theorem readIpv4_of_octet (h : octet rest = none) : readIpv4 rest = none := by
  simp [readIpv4, h]

theorem readIpv4_of_ends (h : Ends rest) : readIpv4 rest = none :=
  readIpv4_of_octet (octet_of_head? fun c hc => isDigit_of_hexDigit? (h c hc).1)

theorem octet_decimal (n : UInt8) (h : ∀ c ∈ rest.head?, c.isDigit = false) :
    octet (decimal n.toNat ++ rest) = some (n, rest) := by
  have hshape : ∀ n < 256, (digits (decimal n)).length ≠ 0 ∧ (digits (decimal n)).length ≤ 3 ∧
      ¬ ((digits (decimal n)).head? = some 0 ∧ 1 < (digits (decimal n)).length) := by
    decide +kernel
  obtain ⟨hne, hshort, hlead⟩ := hshape n.toNat n.toNat_lt
  have hbound : n.toNat ≤ 255 := Nat.le_of_lt_succ n.toNat_lt
  rw [octet, spanDigits_append (fun c => isDigit_of_mem_decimal _) h]
  dsimp only
  rw [ofDigits_digits_decimal, if_neg (by omega), if_neg hlead]
  exact congrArg (fun m => some (m, rest)) (UInt8.ofNat_toNat)

theorem literal_self (c : Char) : literal c (c :: rest) = some rest := if_pos rfl

theorem readIpv4_text (x : Ipv4) (h : ∀ c ∈ rest.head?, c.isDigit = false) :
    readIpv4 (x.text ++ rest) = some (x, rest) := by
  have hdot : ∀ s : List Char, ∀ c ∈ ('.' :: s).head?, c.isDigit = false := by
    rintro s _ ⟨⟩
    rfl
  simp only [Ipv4.text, List.append_assoc, List.cons_append, readIpv4, Option.bind_eq_bind,
    Option.bind_some, octet_decimal _ (hdot _), octet_decimal _ h, literal_self]
  rfl

theorem group_hexadecimal (g : UInt16) (h : Ends rest) :
    group (hexadecimal g.toNat ++ rest) = some (g, rest) := by
  obtain ⟨ds, hds, hvalue⟩ := exists_digits_hexadecimal g.toNat
  have hlength : (hexadecimal g.toNat).length = ds.length := by simpa using congrArg List.length hds
  have hne : ds.length ≠ 0 := by
    rw [← hlength]
    exact List.length_eq_zero_iff.not.mpr Nat.toDigits_ne_nil
  have hshort : ds.length ≤ 4 := by
    rw [← hlength]
    exact (Nat.length_toDigits_le_iff (by decide) (by decide)).mpr g.toNat_lt
  rw [group, spanDigits_of_map hds fun c hc => (h c hc).1]
  dsimp only
  rw [if_neg (by omega), hvalue]
  exact congrArg (fun m => some (m, rest)) (UInt16.ofNat_toNat)

theorem literal_dot_spanDigits {s : List Char} (hs : ∀ c ∈ s, hexDigit? c ≠ none) (h : Ends rest) :
    literal '.' (spanDigits decimalDigit? (s ++ rest)).2 = none := by
  induction s with
  | nil =>
      rw [List.nil_append, spanDigits_of_head? fun c hc => isDigit_of_hexDigit? (h c hc).1]
      cases rest with
      | nil => rfl
      | cons c rest => exact if_neg (h c rfl).2
  | cons c s ih =>
      rw [List.cons_append, spanDigits]
      split
      · exact ih fun d hd => hs d (List.mem_cons_of_mem _ hd)
      · refine if_neg ?_
        rintro rfl
        exact hs '.' List.mem_cons_self rfl

theorem hexDigit?_of_mem_hexadecimal {n : Nat} {c : Char} (h : c ∈ hexadecimal n) :
    hexDigit? c ≠ none := by
  obtain ⟨ds, hds, -⟩ := exists_digits_hexadecimal n
  have hmem : hexDigit? c ∈ (hexadecimal n).map hexDigit? := List.mem_map_of_mem h
  rw [hds] at hmem
  obtain ⟨d, -, hd⟩ := List.mem_map.mp hmem
  rw [← hd]
  exact Option.some_ne_none d

theorem octet_rest {s : List Char} {n : UInt8} {tail : List Char} (h : octet s = some (n, tail)) :
    tail = (spanDigits decimalDigit? s).2 := by
  unfold octet at h
  dsimp only at h
  split at h
  · cases h
  · split at h
    · cases h
    · exact (congrArg Prod.snd (Option.some.inj h)).symm

theorem readIpv4_hexadecimal (n : Nat) (h : Ends rest) :
    readIpv4 (hexadecimal n ++ rest) = none := by
  -- The digits in front may well be an octet, but no point follows them.
  cases hoctet : octet (hexadecimal n ++ rest) with
  | none => exact readIpv4_of_octet hoctet
  | some r =>
      obtain ⟨m, tail⟩ := r
      have hdot : literal '.' tail = none := by
        rw [octet_rest hoctet]
        exact literal_dot_spanDigits (fun c => hexDigit?_of_mem_hexadecimal) h
      simp [readIpv4, hoctet, hdot]

end

section

variable {rest : List Char} {room : Nat}

theorem readGroups_first (h : Ends rest) : readGroups room true rest = ([], false, rest) := by
  cases room with
  | zero => rfl
  | succ room => simp [readGroups, separated, readIpv4_of_ends h, group_of_ends h]

theorem readGroups_closes (h : Closes rest) : readGroups room false rest = ([], false, rest) := by
  have hcolon : literal ':' rest = none := by
    cases rest with
    | nil => rfl
    | cons c rest => exact if_neg (h.2 c rfl)
  cases room with
  | zero => rfl
  | succ room => simp [readGroups, separated, hcolon]

theorem readGroups_gap : readGroups room false (':' :: ':' :: rest) =
    ([], false, ':' :: ':' :: rest) := by
  cases room with
  | zero => rfl
  | succ room =>
      simp [readGroups, separated, literal_self, readIpv4_of_ends (ends_colon rest),
        group_of_ends (ends_colon rest)]

theorem readGroups_hexadecimal (room : Nat) {first : Bool} {s : List Char} (g : UInt16)
    (h : Ends rest) (hs : separated first s = some (hexadecimal g.toNat ++ rest)) :
    readGroups (room + 1) first s =
      (g :: (readGroups room false rest).1, (readGroups room false rest).2) := by
  simp [readGroups, hs, readIpv4_hexadecimal _ h, group_hexadecimal g h]

def joined (gs : List UInt16) : List Char := gs.flatMap fun g => ':' :: hexadecimal g.toNat

theorem groupsText_cons (g : UInt16) (gs : List UInt16) :
    groupsText (g :: gs) = hexadecimal g.toNat ++ joined gs := by
  induction gs generalizing g with
  | nil => simp [groupsText, joined]
  | cons g' gs ih => simp [groupsText, ih, joined]

theorem ends_joined (gs : List UInt16) (h : Ends rest) : Ends (joined gs ++ rest) := by
  cases gs with
  | nil => exact h
  | cons g gs => exact ends_colon _

theorem readGroups_joined {gs : List UInt16} (hroom : gs.length ≤ room) (h : Ends rest)
    (hrest : ∀ room, readGroups room false rest = ([], false, rest)) :
    readGroups room false (joined gs ++ rest) = (gs, false, rest) := by
  induction gs generalizing room with
  | nil => exact hrest room
  | cons g gs ih =>
      obtain ⟨room, rfl⟩ := Nat.exists_eq_succ_of_ne_zero (Nat.ne_zero_of_lt hroom)
      have hcolon : separated false (joined (g :: gs) ++ rest) =
          some (hexadecimal g.toNat ++ (joined gs ++ rest)) := by
        simp [separated, joined, literal_self]
      rw [readGroups_hexadecimal room g (ends_joined gs h) hcolon,
        ih (Nat.le_of_succ_le_succ hroom)]

theorem readGroups_groupsText (gs : List UInt16) (hroom : gs.length ≤ room) (h : Ends rest)
    (hrest : ∀ room, readGroups room false rest = ([], false, rest)) :
    readGroups room true (groupsText gs ++ rest) = (gs, false, rest) := by
  cases gs with
  | nil => exact readGroups_first h
  | cons g gs =>
      obtain ⟨room, rfl⟩ := Nat.exists_eq_succ_of_ne_zero (Nat.ne_zero_of_lt hroom)
      rw [groupsText_cons, List.append_assoc,
        readGroups_hexadecimal room g (ends_joined gs h) rfl,
        readGroups_joined (Nat.le_of_succ_le_succ hroom) h hrest]

end

theorem take_leadingZeros (gs : List UInt16) :
    gs = List.replicate (leadingZeros gs) 0 ++ gs.drop (leadingZeros gs) := by
  induction gs with
  | nil => rfl
  | cons g gs ih =>
      rw [leadingZeros]
      split
      · subst g
        rw [List.replicate_succ, List.cons_append, List.drop_succ_cons, ← ih]
      · rfl

theorem longestZeroRun_spec (position : Nat) (gs : List UInt16) :
    ∃ start length, longestZeroRun position gs = (position + start, length) ∧
      gs = gs.take start ++ List.replicate length 0 ++ gs.drop (start + length) := by
  induction gs generalizing position with
  | nil => exact ⟨0, 0, rfl, rfl⟩
  | cons g gs ih =>
      obtain ⟨start, length, hrun, hsplit⟩ := ih (position + 1)
      rw [longestZeroRun]
      split
      · refine ⟨0, leadingZeros (g :: gs), rfl, ?_⟩
        rw [Nat.zero_add, List.take_zero, List.nil_append]
        exact take_leadingZeros _
      · refine ⟨start + 1, length, by rw [hrun, Nat.add_assoc, Nat.add_comm 1], ?_⟩
        rw [Nat.add_right_comm, List.take_succ_cons, List.drop_succ_cons, List.cons_append,
          List.cons_append, ← hsplit]

section

variable {rest : List Char} {x : Ipv6}

theorem readIpv6_groupsText (x : Ipv6) (h : Closes rest) :
    readIpv6 (groupsText x.groups ++ rest) = some (x, rest) := by
  have hread := readGroups_groupsText x.groups (Nat.le_of_eq x.length_eq) h.1
    fun _ => readGroups_closes h
  simp [readIpv6, hread, x.length_eq, Ipv6.ofGroups?_groups]

theorem readIpv6_gap {front back : List UInt16}
    (hx : x.groups = front ++ List.replicate (8 - front.length - back.length) 0 ++ back)
    (hlength : front.length + back.length < 8) (h : Closes rest) :
    readIpv6 (groupsText front ++ "::".toList ++ groupsText back ++ rest) = some (x, rest) := by
  have hfront := readGroups_groupsText front (show front.length ≤ 8 by omega)
    (ends_colon (':' :: (groupsText back ++ rest))) fun _ => readGroups_gap
  have hback := readGroups_groupsText back (show back.length ≤ 7 - front.length by omega) h.1
    fun _ => readGroups_closes h
  have hgroups : Ipv6.ofGroups?
      (front ++ (List.replicate (8 - front.length - back.length) 0 ++ back)) = some x := by
    rw [← List.append_assoc, ← hx]
    exact x.ofGroups?_groups
  have hshort : front.length ≠ 8 := by omega
  simp [readIpv6, hfront, hshort, literal_self, hback, hgroups]

theorem groups_of_mapped {y : Ipv4} (hx : x.mapped? = some y) :
    x.groups = [0, 0, 0, 0, 0, 0xffff, word y.a y.b, word y.c y.d] := by
  unfold Ipv6.mapped? at hx
  split at hx
  · rename_i g h hgroups
    obtain rfl := Option.some.inj hx
    rw [hgroups, word_bytes, word_bytes]
  · cases hx

theorem readIpv6_mapped {y : Ipv4} (hx : x.mapped? = some y) (h : Closes rest) :
    readIpv6 ("::ffff:".toList ++ y.text ++ rest) = some (x, rest) := by
  have hdigit : ∀ c ∈ rest.head?, c.isDigit = false :=
    fun c hc => isDigit_of_hexDigit? (h.1 c hc).1
  have hfront : readGroups 8 true (':' :: ':' :: ("ffff:".toList ++ y.text ++ rest)) =
      ([], false, ':' :: ':' :: ("ffff:".toList ++ y.text ++ rest)) :=
    readGroups_first (ends_colon _)
  have hembedded : readGroups 6 false (':' :: (y.text ++ rest)) =
      ([word y.a y.b, word y.c y.d], true, rest) := by
    simp [readGroups, separated, literal_self, readIpv4_text y hdigit]
  have hback : readGroups 7 true ("ffff:".toList ++ y.text ++ rest) =
      ([0xffff, word y.a y.b, word y.c y.d], true, rest) := by
    have hinner : separated true ("ffff:".toList ++ y.text ++ rest) =
        some (hexadecimal (0xffff : UInt16).toNat ++ ':' :: (y.text ++ rest)) := rfl
    rw [readGroups_hexadecimal 6 0xffff (ends_colon _) hinner, hembedded]
  have hgroups : Ipv6.ofGroups? [0, 0, 0, 0, 0, 0xffff, word y.a y.b, word y.c y.d] = some x := by
    rw [← groups_of_mapped hx]
    exact x.ofGroups?_groups
  have htext : "::ffff:".toList ++ y.text ++ rest =
      ':' :: ':' :: ("ffff:".toList ++ y.text ++ rest) := rfl
  rw [htext, readIpv6, hfront]
  simp only [List.length_nil, Bool.false_eq_true, if_false, Option.bind_eq_bind, Option.bind_some,
    literal_self, Nat.sub_zero, hback, reduceCtorEq]
  simp [List.replicate, hgroups]

theorem readIpv6_text (x : Ipv6) (h : Closes rest) :
    readIpv6 (x.text ++ rest) = some (x, rest) := by
  unfold Ipv6.text
  split
  · exact readIpv6_mapped ‹_› h
  · obtain ⟨start, length, hrun, hsplit⟩ := longestZeroRun_spec 0 x.groups
    rw [Nat.zero_add] at hrun
    rw [hrun]
    dsimp only
    split
    · have hlength := congrArg List.length hsplit
      rw [List.length_append, List.length_append, List.length_replicate, x.length_eq] at hlength
      refine readIpv6_gap ?_ (by omega) h
      rw [show 8 - (x.groups.take start).length - (x.groups.drop (start + length)).length = length
        by omega]
      exact hsplit
    · exact readIpv6_groupsText x h

theorem readIpv4_groupsText {gs : List UInt16} (h : Ends rest) :
    readIpv4 (groupsText gs ++ rest) = none := by
  cases gs with
  | nil => exact readIpv4_of_ends h
  | cons g gs =>
      rw [groupsText_cons, List.append_assoc]
      exact readIpv4_hexadecimal _ (ends_joined gs h)

theorem readIpv4_ipv6 (x : Ipv6) (h : Ends rest) : readIpv4 (x.text ++ rest) = none := by
  unfold Ipv6.text
  split
  · exact readIpv4_of_ends (ends_colon _)
  · dsimp only
    split
    · rw [List.append_assoc, List.append_assoc]
      exact readIpv4_groupsText (ends_colon _)
    · exact readIpv4_groupsText h

end

theorem Ip.ofText?_text (x : Ip) : ofText? x.text = some x := by
  cases x with
  | v4 y =>
      have hread : readIpv4 y.text = some (y, []) := by
        rw [← List.append_nil y.text]
        exact readIpv4_text y nofun
      simp [ofText?, text, hread, complete]
  | v6 y =>
      have hnone : readIpv4 y.text = none := by
        rw [← List.append_nil y.text]
        exact readIpv4_ipv6 y closes_nil.1
      have hread : readIpv6 y.text = some (y, []) := by
        rw [← List.append_nil y.text]
        exact readIpv6_text y closes_nil
      simp [ofText?, text, hnone, hread, complete]

section

variable {rest : List Char}

theorem boundedNumber_decimal {n bound : Nat} (hn : n < bound)
    (h : ∀ c ∈ rest.head?, c.isDigit = false) :
    boundedNumber bound (decimal n ++ rest) = some (n, rest) := by
  have hne : (decimal n).length ≠ 0 := List.length_eq_zero_iff.not.mpr (decimal_ne_nil n)
  rw [boundedNumber, spanDigits_append (fun c => isDigit_of_mem_decimal n) h]
  dsimp only
  rw [ofDigits_digits_decimal, length_digits, if_neg (by omega)]

theorem readPort_decimal (port : UInt16) :
    readPort (':' :: decimal port.toNat) = some (port, []) := by
  have hread : boundedNumber 65536 (decimal port.toNat ++ []) = some (port.toNat, []) :=
    boundedNumber_decimal port.toNat_lt nofun
  rw [List.append_nil] at hread
  simp only [readPort, literal_self, Option.bind_eq_bind, Option.bind_some, hread]
  exact congrArg (fun p => some (p, [])) (UInt16.ofNat_toNat)

theorem closes_cons {c : Char} (h : hexDigit? c = none) (hc : c ∉ ['.', ':']) :
    Closes (c :: rest) := by
  simp only [List.mem_cons, List.not_mem_nil, or_false, not_or] at hc
  refine ⟨ends_cons h hc.1, ?_⟩
  rintro _ ⟨⟩
  exact hc.2

theorem readScope_text (scope : UInt32) (rest : List Char) :
    readScope ((if scope = 0 then [] else '%' :: decimal scope.toNat) ++ ']' :: rest) =
      (scope, ']' :: rest) := by
  split
  · subst scope
    rfl
  · have hdigit : ∀ c ∈ (']' :: rest).head?, c.isDigit = false := by
      rintro _ ⟨⟩
      rfl
    have hread : boundedNumber 4294967296 (decimal scope.toNat ++ ']' :: rest) =
        some (scope.toNat, ']' :: rest) := boundedNumber_decimal scope.toNat_lt hdigit
    rw [List.cons_append, readScope, literal_self]
    dsimp only
    rw [hread]
    exact congrArg (fun n => (n, ']' :: rest)) (UInt32.ofNat_toNat)

theorem closes_scope (scope : UInt32) (rest : List Char) :
    Closes ((if scope = 0 then [] else '%' :: decimal scope.toNat) ++ ']' :: rest) := by
  split
  · exact closes_cons rfl (by decide)
  · exact closes_cons rfl (by decide)

theorem readSocketV4_text (x : Ipv4) (port : UInt16) :
    readSocketV4 (Socket.v4 x port).text = some (.v4 x port, []) := by
  have hcolon : ∀ c ∈ (':' :: decimal port.toNat).head?, c.isDigit = false := by
    rintro _ ⟨⟩
    rfl
  rw [readSocketV4, Socket.text, readIpv4_text x hcolon]
  simp only [Option.bind_eq_bind, Option.bind_some, readPort_decimal]
  rfl

theorem readSocketV6_text (x : Ipv6) (port : UInt16) (scope : UInt32) :
    readSocketV6 (Socket.v6 x port scope).text = some (.v6 x port scope, []) := by
  rw [Socket.text, List.append_assoc, List.cons_append, readSocketV6, literal_self]
  simp only [Option.bind_eq_bind, Option.bind_some, readIpv6_text x (closes_scope scope _),
    readScope_text, literal_self, readPort_decimal]
  rfl

end

theorem Socket.ofText?_text (x : Socket) : ofText? x.text = some x := by
  cases x with
  | v4 y port => rw [ofText?, readSocketV4_text, complete]
  | v6 y port scope =>
      have hnone : readSocketV4 (v6 y port scope).text = none := by
        rw [text, List.append_assoc, List.cons_append, readSocketV4,
          readIpv4_of_ends (ends_cons rfl (by decide))]
        rfl
      rw [ofText?, hnone, readSocketV6_text, complete]

end Net

end InbandTrace
