import InbandTrace.Proofs.Binary64.Bounds
import InbandTrace.Proofs.Binary64.Nearest
import InbandTrace.Time.Span

namespace InbandTrace

open Binary64 (one one_pos ofUnits)

attribute [local irreducible] Binary64.one Binary64.ofUnits

namespace Span

/-- The least number of milliseconds that is too long for a span, in units. -/
def tooMany : Nat := 1000 * 2 ^ 64 * one

def tooManyExponent : Nat := 1095

theorem two_pow_tooManyExponent : 2 ^ tooManyExponent = 2 ^ 21 * one := by
  obtain ⟨k, hk, hone⟩ := Binary64.exists_one
  have hsum : tooManyExponent = 21 + k := by rw [hk, tooManyExponent]
  rw [hone, ← Nat.pow_add, hsum]

theorem tooMany_eq : tooMany = 125 * 2 ^ 46 * 2 ^ tooManyExponent := by
  rw [two_pow_tooManyExponent, tooMany]
  ring

attribute [local irreducible] tooManyExponent

theorem mantissa_lt_of_units {m e : Nat} (hlead : Binary64.Leads m e) (h : m * 2 ^ e < tooMany) :
    e < tooManyExponent ∨ e = tooManyExponent ∧ m < 125 * 2 ^ 46 := by
  rw [tooMany_eq] at h
  rcases Nat.lt_trichotomy e tooManyExponent with hlt | rfl | hgt
  · exact .inl hlt
  · exact .inr ⟨rfl, Nat.lt_of_mul_lt_mul_right h⟩
  · have hbig : 2 ^ 52 * (2 * 2 ^ tooManyExponent) ≤ m * 2 ^ e := by
      rw [← Nat.pow_succ']
      exact Nat.mul_le_mul (hlead.resolve_left (Nat.ne_zero_of_lt hgt))
        (Nat.pow_le_pow_right (by decide) hgt)
    generalize 2 ^ tooManyExponent = b at h hbig
    omega

theorem units_add_le {x : Binary64} (hx : x.Proper) (h : x.units < tooMany) :
    x.units + 2 ^ 21 * one ≤ tooMany := by
  cases x with
  | nan => exact hx.elim
  | infinite s => exact hx.elim
  | finite s m e =>
      obtain ⟨hm, -, hlead⟩ := hx
      change m * 2 ^ e < _ at h
      change m * 2 ^ e + _ ≤ _
      rw [tooMany_eq, ← two_pow_tooManyExponent]
      rcases mantissa_lt_of_units hlead h with hlt | ⟨rfl, hlt⟩
      · have hsmall : 2 * (m * 2 ^ e) ≤ 2 ^ 53 * 2 ^ tooManyExponent := by
          calc 2 * (m * 2 ^ e) = m * 2 ^ (e + 1) := by ring
            _ ≤ 2 ^ 53 * 2 ^ tooManyExponent :=
              Nat.mul_le_mul (Nat.le_of_lt hm) (Nat.pow_le_pow_right (by decide) hlt)
        have hpos : 0 < 2 ^ tooManyExponent := Nat.two_pow_pos _
        generalize m * 2 ^ e = u at hsmall ⊢
        generalize 2 ^ tooManyExponent = b at hsmall hpos ⊢
        omega
      · calc m * 2 ^ tooManyExponent + 2 ^ tooManyExponent = (m + 1) * 2 ^ tooManyExponent :=
              (Nat.succ_mul ..).symm
          _ ≤ 125 * 2 ^ 46 * 2 ^ tooManyExponent := Nat.mul_le_mul_right _ hlt

theorem ofSeconds?_eq_none_iff {x : Binary64} (h : x.isNegative = false) :
    ofSeconds? x = none ↔ (x.isFinite = true → 2 ^ 64 * one ≤ x.units) := by
  cases x with
  | nan => simp [ofSeconds?, Binary64.isFinite]
  | infinite s => simp [ofSeconds?, Binary64.isFinite]
  | finite s m e =>
      obtain rfl : s = false := h
      have hbelow : secondsBelow = 2 ^ 64 := rfl
      simp [ofSeconds?, Binary64.isFinite, Binary64.units, hbelow]

theorem ofSeconds?_of_lt {m e : Nat} (h : m * 2 ^ e < 2 ^ 64 * one) :
    ofSeconds? (.finite false m e) = some (roundHalfEven (m * 2 ^ e * perSecond) one) := by
  simp only [ofSeconds?, Bool.false_and, Bool.false_eq_true, if_false]
  exact if_neg (Nat.not_le.mpr h)

theorem exists_place (n : Nat) : ∃ k, k = n + 1074 ∧ 2 ^ k = 2 ^ n * one := by
  obtain ⟨k, hk, hone⟩ := Binary64.exists_one
  exact ⟨n + k, by rw [hk], by rw [hone, Nat.pow_add]⟩

theorem div_thousand {x : Binary64} (h : x.isNegative = false) :
    x.div (.ofNat 1000) = ofUnits false (x.units * one) (1000 * one) := by
  rw [Binary64.div_eq, h, Binary64.isNegative_ofNat, Binary64.units_ofNat (by decide)]
  rfl

theorem isNegative_div_thousand {x : Binary64} (h : x.isNegative = false) :
    (x.div (.ofNat 1000)).isNegative = false := by
  rw [div_thousand h]
  unfold ofUnits
  exact Binary64.isNegative_normalize ..

theorem units_div_thousand {x : Binary64} (hx : x.Proper) (h : x.isNegative = false) :
    ((x.div (.ofNat 1000)).isFinite = true → 2 ^ 64 * one ≤ (x.div (.ofNat 1000)).units) ↔
      tooMany ≤ x.units := by
  have hpos := one_pos
  have hden : 0 < 1000 * one := Nat.mul_pos (by decide) hpos
  rw [div_thousand h]
  constructor
  · intro hlong
    by_contra hshort
    have hroom := units_add_le hx (Nat.lt_of_not_le hshort)
    rw [tooMany] at hroom
    have hfinite : (ofUnits false (x.units * one) (1000 * one)).isFinite = true := by
      refine Binary64.isFinite_ofUnits hden ?_
      have htop : 2 ^ 70 ≤ Binary64.topPlace := Binary64.two_pow_le_topPlace (by decide)
      have hless : 2 * x.units < 1000 * 2 ^ 66 * one := by omega
      rw [Binary64.lastUnit]
      calc 2 * (x.units * one) = 2 * x.units * one := (Nat.mul_assoc ..).symm
        _ < 1000 * 2 ^ 66 * one * one := Nat.mul_lt_mul_of_pos_right hless hpos
        _ = 1000 * one * (2 ^ 66 * one) := by ring
        _ ≤ 1000 * one * ((2 ^ 54 - 1) * Binary64.topPlace * one) :=
            Nat.mul_le_mul_left _ (Nat.mul_le_mul_right _ (by omega))
        _ = 1000 * one * ((2 ^ 54 - 1) * (Binary64.topPlace * one)) := by
            rw [Nat.mul_assoc (2 ^ 54 - 1)]
    obtain ⟨k, -, hk⟩ := exists_place 11
    have hhalf : 2 * (x.units * one) < 1000 * one * ((2 * (2 ^ 53 - 1) + 1) * 2 ^ k) := by
      have hless : 2 * x.units < 1000 * ((2 ^ 54 - 1) * (2 ^ 11 * one)) := by omega
      rw [hk]
      calc 2 * (x.units * one) = 2 * x.units * one := (Nat.mul_assoc ..).symm
        _ < 1000 * ((2 ^ 54 - 1) * (2 ^ 11 * one)) * one := Nat.mul_lt_mul_of_pos_right hless hpos
        _ = 1000 * one * ((2 ^ 54 - 1) * (2 ^ 11 * one)) := Nat.mul_right_comm ..
    have hle : (ofUnits false _ _).units ≤ _ :=
      Binary64.units_ofUnits_le_of_lt (by decide) (by decide) hden hhalf
    have hreached := hlong hfinite
    rw [hk] at hle
    omega
  · intro hlong hfinite
    obtain ⟨k, -, hk⟩ := exists_place 12
    have hreach : 1000 * one * (2 ^ 52 * 2 ^ k) ≤ x.units * one := by
      rw [hk]
      calc 1000 * one * (2 ^ 52 * (2 ^ 12 * one)) = tooMany * one := by
            rw [tooMany]
            ring
        _ ≤ x.units * one := Nat.mul_le_mul_right _ hlong
    have hle := Binary64.le_units_ofUnits (Nat.le_refl _) (by decide) hden hreach hfinite
    rw [hk] at hle
    omega

theorem isPositive_iff {x : Binary64} (h : x.Proper) :
    x.isPositive = true ↔ x.isNegative = false ∧ x.units ≠ 0 := by
  cases x with
  | nan => exact h.elim
  | infinite s => exact h.elim
  | finite s m e => simp [Binary64.isPositive, Binary64.isNegative, Binary64.units]

theorem ofMillis?_eq_none_iff {ms : Binary64} (h : ms.Proper) :
    ofMillis? ms = none ↔ ms.isNegative = false ∧ tooMany ≤ ms.units := by
  by_cases hpositive : ms.isPositive = true
  · obtain ⟨hsign, -⟩ := (isPositive_iff h).mp hpositive
    rw [ofMillis?, if_pos hpositive, ofSeconds?_eq_none_iff (isNegative_div_thousand hsign),
      units_div_thousand h hsign]
    simp [hsign]
  · have hzero : (ofSeconds? ((Binary64.zero false).div (.ofNat 1000))).isSome := by decide +kernel
    have hpos : 0 < tooMany := Nat.mul_pos (by decide) one_pos
    rw [ofMillis?, if_neg hpositive]
    refine iff_of_false (Option.ne_none_iff_isSome.mpr hzero) ?_
    rintro ⟨hsign, hlong⟩
    exact hpositive ((isPositive_iff h).mpr ⟨hsign, by omega⟩)

theorem units_nanos_le {n : Nat} (h : n < perSecond) :
    ((Binary64.ofNat n).div (.ofNat perSecond)).units ≤ 3 * one := by
  have hpos := one_pos
  have hnanos : n < 2 ^ 53 := Nat.lt_trans h (by decide)
  rw [Binary64.div_eq, Binary64.units_ofNat hnanos, Binary64.units_ofNat (by decide)]
  have hle := Binary64.units_ofUnits_le
    ((Binary64.ofNat n).isNegative != (Binary64.ofNat perSecond).isNegative) (n * one * one)
    (perSecond * one)
  have hquotient : n * one * one / (perSecond * one) ≤ one :=
    Nat.div_le_of_le_mul (Nat.mul_le_mul_right _ (Nat.mul_le_mul_right _ (Nat.le_of_lt h)))
  omega

theorem near_two_pow {k num den : Nat} (hk : 0 < k) (hlow : den * ((2 ^ 54 - 1) * 2 ^ k) ≤ 4 * num)
    (hhigh : 4 * num ≤ den * ((2 ^ 54 + 2) * 2 ^ k)) : Binary64.Near (2 ^ 52) k num den := by
  refine ⟨?_, hhigh, fun hodd => absurd hodd (by decide)⟩
  change den * ((4 * 2 ^ 52 - if 2 ^ 52 = Binary64.hidden ∧ 0 < k then 1 else 2) * 2 ^ k) ≤ _
  rwa [if_pos ⟨rfl, hk⟩]

section

variable {s : Nat}

theorem ofNat_of_le (hlow : 2 ^ 64 - 1024 ≤ s) (hhigh : s < 2 ^ 64) :
    Binary64.ofNat s = .finite false (2 ^ 52) (12 + 1074) := by
  obtain ⟨k, hk, hplace⟩ := exists_place 12
  have hnear : Binary64.Near (2 ^ 52) k (s * one) 1 := by
    refine near_two_pow (by omega) ?_ ?_
    · rw [hplace]
      calc 1 * ((2 ^ 54 - 1) * (2 ^ 12 * one)) = (2 ^ 54 - 1) * 2 ^ 12 * one := by ring
        _ ≤ 4 * s * one := Nat.mul_le_mul_right _ (by omega)
        _ = 4 * (s * one) := Nat.mul_assoc ..
    · rw [hplace]
      calc 4 * (s * one) = 4 * s * one := (Nat.mul_assoc ..).symm
        _ ≤ (2 ^ 54 + 2) * 2 ^ 12 * one := Nat.mul_le_mul_right _ (by omega)
        _ = 1 * ((2 ^ 54 + 2) * (2 ^ 12 * one)) := by ring
  rw [Binary64.ofNat_eq, ← hk]
  exact hnear.ofUnits_eq (by decide) (by omega) (.inr (Nat.le_refl _)) (by decide)

theorem units_ofNat_of_lt (h : s < 2 ^ 64 - 1024) :
    (Binary64.ofNat s).units ≤ (2 ^ 53 - 1) * (2 ^ 11 * one) := by
  obtain ⟨k, -, hplace⟩ := exists_place 11
  rw [Binary64.ofNat_eq, ← hplace]
  refine Binary64.units_ofUnits_le_of_lt (by decide) (by decide) (by decide) ?_
  rw [hplace]
  calc 2 * (s * one) = 2 * s * one := (Nat.mul_assoc ..).symm
    _ < (2 ^ 54 - 1) * 2 ^ 11 * one := Nat.mul_lt_mul_of_pos_right (by omega) one_pos
    _ = 1 * ((2 * (2 ^ 53 - 1) + 1) * (2 ^ 11 * one)) := by ring

end

section

variable {t : Span}

theorem units_over_le (t : Span) :
    ((Binary64.ofNat (t % perSecond)).div (.ofNat perSecond)).units ≤ 3 * one :=
  units_nanos_le (Nat.mod_lt t (by decide))

theorem toSeconds_of_le (hlow : 2 ^ 64 - 1024 ≤ t / perSecond) (hhigh : t / perSecond < 2 ^ 64) :
    t.toSeconds = .finite false (2 ^ 52) (12 + 1074) := by
  have hpos := one_pos
  have hover := units_over_le t
  obtain ⟨k, hk, hplace⟩ := exists_place 12
  have hunits : (Binary64.finite false (2 ^ 52) k).units = 2 ^ 52 * (2 ^ 12 * one) :=
    congrArg (2 ^ 52 * ·) hplace
  rw [toSeconds, ofNat_of_le hlow hhigh, Binary64.add_eq, ← hk, hunits]
  generalize ((Binary64.ofNat (t % perSecond)).div (.ofNat perSecond)).units = u at hover ⊢
  have hnear : Binary64.Near (2 ^ 52) k ((2 ^ 52 * (2 ^ 12 * one) + u) * one) one := by
    refine near_two_pow (by omega) ?_ ?_
    · rw [hplace, Nat.mul_comm one, ← Nat.mul_assoc 4]
      exact Nat.mul_le_mul_right _ (by omega)
    · rw [hplace, Nat.mul_comm one, ← Nat.mul_assoc 4]
      exact Nat.mul_le_mul_right _ (by omega)
  exact hnear.ofUnits_eq (by decide) (by omega) (.inr (Nat.le_refl _)) hpos

theorem toMillis_of_le (hlow : 2 ^ 64 - 1024 ≤ t / perSecond) (hhigh : t / perSecond < 2 ^ 64) :
    t.toMillis = .finite false (125 * 2 ^ 46) 1095 := by
  rw [toMillis, toSeconds_of_le hlow hhigh]
  decide +kernel

theorem isNegative_ofUnits (num den : Nat) : (ofUnits false num den).isNegative = false := by
  unfold ofUnits
  exact Binary64.isNegative_normalize ..

theorem units_toSeconds_of_lt (h : t / perSecond < 2 ^ 64 - 1024) :
    t.toSeconds.units ≤ (2 ^ 53 - 1) * (2 ^ 11 * one) := by
  have hpos := one_pos
  have hover := units_over_le t
  have hwhole := units_ofNat_of_lt h
  obtain ⟨k, -, hplace⟩ := exists_place 11
  rw [toSeconds, Binary64.add_eq, ← hplace]
  generalize ((Binary64.ofNat (t % perSecond)).div (.ofNat perSecond)).units = u at hover ⊢
  generalize (Binary64.ofNat (t / perSecond)).units = v at hwhole ⊢
  refine Binary64.units_ofUnits_le_of_lt (by decide) (by decide) hpos ?_
  rw [hplace, Nat.mul_comm one, ← Nat.mul_assoc 2]
  exact Nat.mul_lt_mul_of_pos_right (by omega) hpos

theorem toMillis_of_lt (h : t / perSecond < 2 ^ 64 - 1024) :
    t.toMillis.Proper ∧ t.toMillis.isNegative = false ∧ t.toMillis.units < tooMany := by
  have hpos := one_pos
  have hseconds := units_toSeconds_of_lt h
  have hsign : t.toSeconds.isNegative = false := by
    rw [toSeconds, Binary64.add_eq]
    exact isNegative_ofUnits _ _
  have hmillis : t.toMillis =
      ofUnits false (t.toSeconds.units * (1000 * one) * one) (one * one) := by
    rw [toMillis, Binary64.mul_eq, hsign, Binary64.isNegative_ofNat,
      Binary64.units_ofNat (by decide)]
    rfl
  obtain ⟨k, -, hplace⟩ := exists_place 21
  have hden : 0 < one * one := Nat.mul_pos hpos hpos
  rw [hmillis]
  generalize t.toSeconds.units = v at hseconds ⊢
  have hscaled : 2 * (v * (1000 * one) * one) = 2000 * v * (one * one) := by ring
  have hless : 2000 * v < (250 * 2 ^ 46 - 1) * 2 ^ 21 * one := by omega
  refine ⟨Binary64.proper_ofUnits (Binary64.isFinite_ofUnits hden ?_), isNegative_ofUnits _ _, ?_⟩
  · have htop : 2 ^ 70 ≤ Binary64.topPlace := Binary64.two_pow_le_topPlace (by decide)
    rw [hscaled, Nat.mul_comm, Binary64.lastUnit, ← Nat.mul_assoc (2 ^ 54 - 1)]
    refine Nat.mul_lt_mul_of_pos_left (Nat.lt_of_lt_of_le hless ?_) hden
    exact Nat.mul_le_mul_right _ (by omega)
  · have hhalf : 2 * (v * (1000 * one) * one) <
        one * one * ((2 * (125 * 2 ^ 46 - 1) + 1) * 2 ^ k) := by
      rw [hscaled, hplace, Nat.mul_comm, ← Nat.mul_assoc (2 * (125 * 2 ^ 46 - 1) + 1)]
      exact Nat.mul_lt_mul_of_pos_left hless hden
    have hle : (ofUnits false _ _).units ≤ _ :=
      Binary64.units_ofUnits_le_of_lt (by decide) (by decide) hden hhalf
    rw [hplace] at hle
    rw [tooMany]
    omega

end

end Span

end InbandTrace
