import InbandTrace.Proofs.Registry.Sole
import InbandTrace.Proofs.Sender.Attempt
import Mathlib.Data.List.Nodup

namespace InbandTrace

/-- The serial numbers from 2 ^ 16 - 1 to 0 make a step of 64 and not of 1 modulo 96. -/
theorem Payload.length_eq_iff {a b : UInt16} {d : Nat} (hb : b.toNat = (a.toNat + d) % 65536)
    (hpos : 0 < d) (hd : d < 160) :
    length b = length a ↔ if b.toNat < d then d = 64 else d = 96 := by
  have ha := a.toNat_lt
  simp only [length, lengths]
  by_cases hwrap : a.toNat + d < 65536
  · rw [Nat.mod_eq_of_lt hwrap] at hb
    rw [if_neg (by omega)]
    omega
  · have hb' : b.toNat + 65536 = a.toNat + d := by omega
    clear hb
    rw [if_pos (by omega)]
    omega

namespace Registry

theorem exists_of_apply_sparing {r : Registry} {flow : Flow} {op : Operation}
    (hop : op.Sparing flow) {e : Entry} (he : e ∈ (r.apply op).2.entries)
    (hflow : e.token.flow = flow) : ∃ e' ∈ r.entries, e'.token = e.token := by
  have hresolve : ∀ token ip kind t, e ∈ (r.resolve token ip kind t).2.entries →
      ∃ e' ∈ r.entries, e'.token = e.token := by
    intro token ip kind t hin
    rw [entries_resolve] at hin
    exact ⟨e, List.mem_of_mem_filter hin, rfl⟩
  cases op with
  | register token ttl s d =>
      simp only [apply] at he
      split at he
      · exact ⟨e, he, rfl⟩
      · rename_i hr
        obtain ⟨-, -, rfl⟩ := register_eq_some_iff.mp hr
        rcases List.mem_append.mp he with he | he
        · exact ⟨e, he, rfl⟩
        · rw [List.mem_singleton.mp he] at hflow
          exact absurd hflow hop
  | resolve token ip kind t => exact hresolve _ _ _ _ he
  | restamp token s d =>
      obtain ⟨e', he', rfl⟩ := List.mem_map.mp he
      refine ⟨e', he', ?_⟩
      split <;> rfl
  | release token =>
      simp only [apply, entries_release] at he
      exact ⟨e, List.mem_of_mem_filter he, rfl⟩
  | packet data source t =>
      cases ha : (Operation.packet data source t).arrival? with
      | none =>
          rw [apply_of_malformed ha] at he
          exact ⟨e, he, rfl⟩
      | some a =>
          rw [(apply_of_arrival ha r).2] at he
          exact hresolve _ _ _ _ he
  | reap now =>
      simp only [apply, entries_reap] at he
      exact ⟨e, List.mem_of_mem_filter he, rfl⟩
  | receive n =>
      simp only [apply, entries_receive] at he
      exact ⟨e, he, rfl⟩
  | drop n => exact ⟨e, he, rfl⟩

theorem exists_of_after_sparing {r : Registry} {flow : Flow} {ops : List Operation}
    (hops : ∀ op ∈ ops, op.Sparing flow) {e : Entry} (he : e ∈ (r.after ops).entries)
    (hflow : e.token.flow = flow) : ∃ e' ∈ r.entries, e'.token = e.token := by
  induction ops generalizing r with
  | nil => exact ⟨e, he, rfl⟩
  | cons op rest ih =>
      obtain ⟨e₁, he₁, htoken₁⟩ := ih (fun op' hop' => hops op' (List.mem_cons_of_mem _ hop')) he
      obtain ⟨e₂, he₂, htoken₂⟩ := exists_of_apply_sparing (hops op List.mem_cons_self) he₁
        (by rw [htoken₁, hflow])
      exact ⟨e₂, he₂, htoken₂.trans htoken₁⟩

theorem exists_of_contains {r : Registry} {token : Token} (h : r.contains token) :
    ∃ e ∈ r.entries, e.token = token := by
  obtain ⟨e, he⟩ := Option.isSome_iff_exists.mp h
  exact ⟨e, find?_eq_some he⟩

end Registry

namespace Sender

def earlier (s : Sender) (n : Nat) : Sender := { s with serial := s.serial - n.toUInt16 }

theorem toNat_serial_later (s : Sender) (n : Nat) :
    (s.later n).serial.toNat = (s.serial.toNat + n) % 65536 := by
  simp [later, UInt16.toNat_add]

theorem toNat_serial_earlier (s : Sender) (n : Nat) :
    ((s.earlier n).serial.toNat + n) % 65536 = s.serial.toNat := by
  have hs := s.serial.toNat_lt
  simp only [earlier, UInt16.toNat_sub, Nat.toUInt16, UInt16.toNat_ofNat']
  omega

theorem ipLength_eq_iff {s t : Sender} (h : s.overhead = t.overhead) :
    s.token.ipLength = t.token.ipLength ↔
      Payload.length s.serial = Payload.length t.serial := by
  have hs := Payload.length_le s.serial
  have ht := Payload.length_le t.serial
  rw [← UInt16.toNat_inj]
  simp only [token, Payload.wireLength, Nat.toUInt16, UInt16.toNat_ofNat', h]
  omega

theorem token_eq_of_length {s t : Sender} (hflow : s.flow = t.flow)
    (hoverhead : s.overhead = t.overhead)
    (h : Payload.length s.serial = Payload.length t.serial) : s.token = t.token := by
  rw [token, token, hflow, hoverhead, h]

theorem ipLength_later_eq_iff (s : Sender) {x y : Nat} (hxy : x < y) (hy : y < x + 96) :
    (s.later y).token.ipLength = (s.later x).token.ipLength ↔
      y = x + 64 ∧ (s.later y).serial.toNat < 64 := by
  have hserial : (s.later y).serial.toNat = ((s.later x).serial.toNat + (y - x)) % 65536 := by
    rw [toNat_serial_later, toNat_serial_later]
    omega
  rw [ipLength_eq_iff (s := s.later y) (t := s.later x) rfl,
    Payload.length_eq_iff hserial (by omega) (by omega)]
  split <;> omega

theorem nodup_lengths_iff (s : Sender) :
    ((List.range 96).map fun i => (s.later (i + 1)).token.ipLength).Nodup ↔
      (s.later 1).serial.toNat + 95 < 65536 := by
  have hfirst := s.toNat_serial_later 1
  rw [List.nodup_map_iff_inj_on List.nodup_range]
  constructor
  · intro hdistinct
    by_contra hwrap
    have hlast := s.toNat_serial_later (65472 - (s.later 1).serial.toNat + 65)
    have hsame := (s.ipLength_later_eq_iff (x := 65472 - (s.later 1).serial.toNat + 1)
      (y := 65472 - (s.later 1).serial.toNat + 65) (by omega) (by omega)).mpr
        ⟨by omega, by omega⟩
    have hequal := hdistinct (65472 - (s.later 1).serial.toNat + 64)
      (List.mem_range.mpr (by omega)) (65472 - (s.later 1).serial.toNat)
      (List.mem_range.mpr (by omega)) hsame
    omega
  · intro hwrap
    have hless : ∀ x y, x < y → y < 96 →
        (s.later (y + 1)).token.ipLength ≠ (s.later (x + 1)).token.ipLength := by
      intro x y hxy hy hsame
      have hy' := s.toNat_serial_later (y + 1)
      obtain ⟨h, hlow⟩ := (s.ipLength_later_eq_iff (x := x + 1) (y := y + 1) (by omega)
        (by omega)).mp hsame
      omega
    intro x hx y hy hsame
    rcases Nat.lt_trichotomy x y with hlt | heq | hgt
    · exact absurd hsame.symm (hless x y hlt (List.mem_range.mp hy))
    · exact heq
    · exact absurd hsame (hless y x hgt (List.mem_range.mp hx))

section

variable {s : Sender} {r : Registry}

theorem contains_later_iff
    (hpending : ∀ e ∈ r.entries, e.token.flow = s.flow → ∃ d < 95, e.token = (s.earlier d).token)
    {i : Nat} (hpos : 0 < i) (hi : i ≤ attempts) :
    r.contains (s.later i).token ↔ ∃ d < 95, r.contains (s.earlier d).token ∧
      if (s.later i).serial.toNat < d + i then d + i = 64 else d + i = 96 := by
  have hlength : ∀ d, d < 95 →
      (Payload.length (s.later i).serial = Payload.length (s.earlier d).serial ↔
        if (s.later i).serial.toNat < d + i then d + i = 64 else d + i = 96) := by
    intro d hd
    unfold attempts at hi
    refine Payload.length_eq_iff ?_ (by omega) (by omega)
    rw [toNat_serial_later, ← toNat_serial_earlier s d]
    omega
  constructor
  · intro h
    obtain ⟨e, he, htoken⟩ := Registry.exists_of_contains h
    obtain ⟨d, hd, hearlier⟩ := hpending e he (by rw [htoken]; rfl)
    have hsame : (s.later i).token = (s.earlier d).token := htoken.symm.trans hearlier
    refine ⟨d, hd, hsame ▸ h, (hlength d hd).mp ?_⟩
    exact (ipLength_eq_iff (s := s.later i) (t := s.earlier d) rfl).mp (by rw [hsame])
  · rintro ⟨d, hd, h, hdiff⟩
    have hsame : (s.later i).token = (s.earlier d).token :=
      token_eq_of_length rfl rfl ((hlength d hd).mpr hdiff)
    rwa [hsame]

theorem contains_after_wrap
    (hpending : ∀ e ∈ r.entries, e.token.flow = s.flow → ∃ d < 95, e.token = (s.earlier d).token)
    (hwrap : (s.later 1).serial.toNat < 64) {i : Nat} (hi : i < attempts) :
    r.contains (s.later (i + 1)).token ↔
      (s.later (i + 1)).serial.toNat < 64 ∧ r.contains (s.earlier (63 - i)).token := by
  have hfirst := s.toNat_serial_later 1
  have hserial := s.toNat_serial_later (i + 1)
  have hi' : i < 4 := hi
  rw [contains_later_iff (i := i + 1) hpending (Nat.succ_pos i) hi]
  constructor
  · rintro ⟨d, hd, h, hdiff⟩
    obtain rfl : d = 63 - i := by split at hdiff <;> omega
    refine ⟨?_, h⟩
    split at hdiff <;> omega
  · rintro ⟨hlow, h⟩
    refine ⟨63 - i, by omega, h, ?_⟩
    rw [if_pos (by omega)]
    omega

theorem contains_next_iff
    (hpending : ∀ e ∈ r.entries, e.token.flow = s.flow → ∃ d < 95, e.token = (s.earlier d).token) :
    r.contains (s.later 1).token ↔
      (s.later 1).serial.toNat < 64 ∧ r.contains (s.earlier 63).token := by
  by_cases hwrap : (s.later 1).serial.toNat < 64
  · exact contains_after_wrap hpending hwrap (i := 0) (by decide)
  · refine iff_of_false ?_ fun h => hwrap h.1
    rw [contains_later_iff hpending Nat.one_pos (by decide)]
    rintro ⟨d, hd, -, hdiff⟩
    split at hdiff <;> omega

theorem send_of_reserve_error {own : Sender} {w : World} {ttl : UInt8} {token : Token}
    (h : s.reserve ttl w.now (attempts - 1) w.statistics.2.engine.registry = (own, .error token)) :
    s.send w ttl = (.error (.tokenCollision token), own, w.statistics.2) := by
  rw [← w.lapse_statistics.now] at h
  simp only [send, launch, h]

theorem collision_iff_contains (s : Sender) (w : World) (ttl : UInt8) :
    (∃ token, (s.send w ttl).1 = .error (.tokenCollision token)) ↔
      ∀ i < attempts, w.statistics.2.engine.registry.contains (s.later (i + 1)).token := by
  rcases s.reserve_cases ttl w.now (attempts - 1) w.statistics.2.engine.registry with
    ⟨hall, hgiven⟩ | ⟨i, hi, -, r, hreg, hgiven⟩
  · rw [send_of_reserve_error hgiven]
    exact ⟨fun _ j hj => hall j (Nat.le_pred_of_lt hj), fun _ => ⟨_, rfl⟩⟩
  · have hfree := (Registry.register_eq_some_iff.mp hreg).1
    rw [send_of_reserve hgiven]
    constructor
    · rintro ⟨token, h⟩
      split at h <;> cases h
    · intro hall
      have htaken := hall i (Nat.lt_of_le_pred (by decide) hi)
      rw [hfree] at htaken
      cases htaken

theorem sender_of_free (s : Sender) (w : World) (ttl : UInt8)
    (h : w.statistics.2.engine.registry.contains (s.later 1).token = false) :
    (s.send w ttl).2.1 = s.later 1 := by
  rcases s.reserve_cases ttl w.now (attempts - 1) w.statistics.2.engine.registry with
    ⟨hall, -⟩ | ⟨i, -, hbefore, r, -, hgiven⟩
  · exact absurd (hall 0 (Nat.zero_le _)) (Bool.eq_false_iff.mp h)
  · cases i with
    | zero =>
        rw [send_of_reserve hgiven]
        split <;> rfl
    | succ i => exact absurd (hbefore 0 (Nat.succ_pos i)) (Bool.eq_false_iff.mp h)

/-- The lengths of 96 probes in a row are distinct unless the serial number wraps around among them.
While only tokens of the last 95 serial numbers are pending, the next one is free unless it follows
the wrap by less than 64 and the serial number 64 before it is pending. -/
theorem collision_iff_wrapped (s : Sender) (w : World) (ttl : UInt8)
    (hpending : ∀ e ∈ w.engine.registry.entries, e.token.flow = s.flow →
      ∃ d < 95, e.token = (s.earlier d).token)
    (hothers : ∀ op ∈ w.dueEvents.operations, op.Sparing s.flow) :
    let before := w.engine.registry.after w.dueEvents.operations
    let (answer, s', _) := s.send w ttl
    (((List.range 96).map fun i => (s.later (i + 1)).token.ipLength).Nodup ↔
      (s.later 1).serial.toNat + 95 < 65536) ∧
    (before.contains (s.later 1).token ↔
      (s.later 1).serial.toNat < 64 ∧ before.contains (s.earlier 63).token) ∧
    (before.contains (s.later 1).token = false → s' = s.later 1) ∧
    ((∃ token, answer = .error (.tokenCollision token)) ↔
      (s.later 1).serial.toNat + attempts ≤ 64 ∧
        ∀ i < attempts, before.contains (s.earlier (63 - i)).token) := by
  intro before
  have hbefore : w.statistics.2.engine.registry = before := w.lapse_statistics.registry
  have hcollision := s.collision_iff_contains w ttl
  have hfree := s.sender_of_free w ttl
  rw [hbefore] at hcollision hfree
  have hpending' : ∀ e ∈ before.entries, e.token.flow = s.flow →
      ∃ d < 95, e.token = (s.earlier d).token := by
    intro e he hflow
    obtain ⟨e', he', htoken⟩ := Registry.exists_of_after_sparing hothers he hflow
    rw [← htoken]
    exact hpending e' he' (by rw [htoken, hflow])
  have hfirst := s.toNat_serial_later 1
  have hlast := s.toNat_serial_later 4
  refine ⟨s.nodup_lengths_iff, contains_next_iff hpending', hfree, hcollision.trans ?_⟩
  constructor
  · intro hall
    have hwrap := ((contains_next_iff hpending').mp (hall 0 (by decide))).1
    have hmeets := fun i hi => (contains_after_wrap hpending' hwrap hi).mp (hall i hi)
    have hlow : (s.later 4).serial.toNat < 64 := (hmeets 3 (by decide)).1
    refine ⟨?_, fun i hi => (hmeets i hi).2⟩
    unfold attempts
    omega
  · rintro ⟨hlow, hall⟩ i hi
    unfold attempts at hlow hi
    have hserial := s.toNat_serial_later (i + 1)
    exact (contains_after_wrap hpending' (by omega) hi).mpr ⟨by omega, hall i hi⟩

end

theorem sent_later (s : Sender) (n : Nat) : Relation.ReflTransGen Sent s (s.later n) := by
  induction n generalizing s with
  | zero =>
      have hsame : s.later 0 = s := by simp [later]
      rw [hsame]
  | succ n ih =>
      have hsent : Sent s s.next := ⟨mappedWorld, 0, (s.sender_of_free _ _ rfl).symm⟩
      rw [← later_next]
      exact .head hsent (ih s.next)

def crowded (serials : List Nat) : World :=
  mappedWorld.withRegistry <| Registry.empty.after <|
    serials.map fun n => .register (mappedSender.later n).token 1 0 1000

theorem collision_of_wrapped :
    let s₀ := mappedSender.later 65471
    let s := s₀.later 64
    let w := crowded [65472, 65473, 65474, 65475, 65535]
    start mappedWorld = (.ok mappedSender, mappedWorld.statistics.2) ∧
      Relation.ReflTransGen Sent mappedSender s₀ ∧ Relation.ReflTransGen Sent s₀ s ∧
      ¬((List.range 96).map fun i => (s₀.later (i + 1)).token.ipLength).Nodup ∧
      (∀ e ∈ w.engine.registry.entries, ∃ d < 95, e.token = (s.earlier d).token) ∧
      w.dueEvents = [] ∧
      (s.send w 3).1 = .error (.tokenCollision ⟨mappedSender.flow, 65⟩) := by
  intro s₀ s w
  refine ⟨rfl, sent_later _ _, sent_later _ _, ?_, by decide +kernel, rfl, by decide +kernel⟩
  rw [nodup_lengths_iff]
  decide

theorem collision_iff_wrapped_late :
    let s := mappedSender.later 65546
    let w := crowded [65482, 65484, 65546]
    w.engine.registry.contains (s.later 1).token = false ∧ (s.send w 3).2.1 = s.later 1 ∧
      ∀ token, (s.send w 3).1 ≠ .error (.tokenCollision token) := by
  intro s w
  obtain ⟨-, hnext, hfree, hcollision⟩ :=
    collision_iff_wrapped s w 3 (by decide +kernel) nofun
  have hnot : w.engine.registry.contains (s.later 1).token = false := by
    rw [Bool.eq_false_iff]
    intro h
    exact absurd (hnext.mp h).2 (by decide +kernel)
  refine ⟨hnot, hfree hnot, fun token h => ?_⟩
  exact absurd ((hcollision.mp ⟨token, h⟩).2 0 (by decide)) (by decide +kernel)

end Sender

end InbandTrace
