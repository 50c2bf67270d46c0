import InbandTrace.Proofs.Binary64.Rounding

namespace InbandTrace

open Text

attribute [local irreducible] Binary64.one Binary64.topPlace Binary64.ofUnits Binary64.Proper

namespace Binary64

variable {x y : Binary64} {k : Nat}

theorem two_mul_lt_of_le {n : Nat} (h : n ≤ 2 ^ 70) : 2 * n < (2 ^ 54 - 1) * topPlace := by
  have hle : 2 ^ 70 ≤ topPlace := two_pow_le_topPlace (by decide)
  omega

theorem isFinite_powerOfTen (hk : k ≤ 308) : (powerOfTen k).isFinite = true := by
  have hpow : 10 ^ k ≤ 10 ^ 308 := pow_le_pow_right₀ (by decide) hk
  have hlast : 2 * 10 ^ 308 < (2 ^ 54 - 1) * topPlace := by decide +kernel
  exact isFinite_ofNat (Nat.lt_of_le_of_lt (Nat.mul_le_mul_left 2 hpow) hlast)

theorem one_le_units_powerOfTen (hk : k ≤ 308) : one ≤ (powerOfTen k).units :=
  one_le_units_ofNat (Nat.pow_pos (by decide)) (isFinite_powerOfTen hk)

theorem proper_div (hx : x.units ≤ 2 ^ 70 * one) (hy : one ≤ y.units) : (x.div y).Proper := by
  rw [div_eq]
  refine proper_ofUnits (isFinite_ofUnits (Nat.lt_of_lt_of_le one_pos hy) ?_)
  rw [lastUnit]
  have htop : 2 * 2 ^ 70 < (2 ^ 54 - 1) * topPlace := two_mul_lt_of_le (by decide)
  have hpos : 0 < one * one := Nat.mul_pos one_pos one_pos
  calc 2 * (x.units * one) ≤ 2 * (2 ^ 70 * one * one) :=
        Nat.mul_le_mul_left _ (Nat.mul_le_mul_right _ hx)
    _ = 2 * 2 ^ 70 * (one * one) := by ring
    _ < (2 ^ 54 - 1) * topPlace * (one * one) := Nat.mul_lt_mul_of_pos_right htop hpos
    _ = one * ((2 ^ 54 - 1) * (topPlace * one)) := by ring
    _ ≤ y.units * ((2 ^ 54 - 1) * (topPlace * one)) := Nat.mul_le_mul_right _ hy

theorem proper_mul (h : (x.mul y).isFinite = true) : (x.mul y).Proper := by
  rw [mul_eq] at h ⊢
  exact proper_ofUnits h

/-- A product overflows only if its factors nearly do: each of the three roundings adds half a
unit of the last place at most. -/
theorem isFinite_mul_ofNat {m n : Nat}
    (h : 2 * (m * n) * (2 ^ 53 + 1) ^ 2 < 2 ^ 106 * ((2 ^ 54 - 1) * topPlace)) :
    ((ofNat m).mul (ofNat n)).isFinite = true := by
  rw [mul_eq]
  refine isFinite_ofUnits (Nat.mul_pos one_pos one_pos) ?_
  have hproduct := Nat.mul_le_mul (units_ofNat_mul_le m) (units_ofNat_mul_le n)
  have hpos := one_pos
  rw [lastUnit]
  generalize one = b at hproduct hpos ⊢
  generalize (ofNat m).units = p at hproduct ⊢
  generalize (ofNat n).units = q at hproduct ⊢
  generalize topPlace = t at h ⊢
  refine Nat.lt_of_mul_lt_mul_left (a := 2 ^ 106) ?_
  calc 2 ^ 106 * (2 * (p * q * b)) = 2 * (p * 2 ^ 53 * (q * 2 ^ 53)) * b := by ring
    _ ≤ 2 * (m * (2 ^ 53 + 1) * b * (n * (2 ^ 53 + 1) * b)) * b :=
        Nat.mul_le_mul_right _ (Nat.mul_le_mul_left _ hproduct)
    _ = 2 * (m * n) * (2 ^ 53 + 1) ^ 2 * (b * b * b) := by ring
    _ < 2 ^ 106 * ((2 ^ 54 - 1) * t) * (b * b * b) :=
        Nat.mul_lt_mul_of_pos_right h (Nat.mul_pos (Nat.mul_pos hpos hpos) hpos)
    _ = 2 ^ 106 * (b * b * ((2 ^ 54 - 1) * (t * b))) := by ring

theorem units_div_le (hy : one ≤ y.units) : (x.div y).units ≤ 2 * x.units + 1 := by
  have hle := units_ofUnits_le (x.isNegative != y.isNegative) (x.units * one) y.units
  rw [← div_eq] at hle
  have hquotient : x.units * one / y.units ≤ x.units :=
    Nat.div_le_of_le_mul (by rw [Nat.mul_comm]; exact Nat.mul_le_mul_right _ hy)
  exact Nat.le_trans hle (by omega)

theorem units_ofNat_le {n : Nat} (h : n < 2 ^ 64) : (ofNat n).units ≤ 2 ^ 65 * one := by
  have hwhole : n * (2 ^ 53 + 1) ≤ 2 ^ 65 * 2 ^ 53 := by omega
  have hle := Nat.le_trans (units_ofNat_mul_le n) (Nat.mul_le_mul_right one hwhole)
  rw [Nat.mul_right_comm] at hle
  exact Nat.le_of_mul_le_mul_right hle (by decide)

theorem proper_ofNat {n : Nat} (h : n < 2 ^ 64) : (ofNat n).Proper := by
  have htop : 2 * 2 ^ 64 < (2 ^ 54 - 1) * topPlace := two_mul_lt_of_le (by decide)
  exact proper_of_isFinite_ofNat (isFinite_ofNat (Nat.lt_trans (by omega) htop))

end Binary64

namespace Json

open Binary64 (one one_pos topPlace)

theorem proper_scaleDown {x : Binary64} (hx : x.units ≤ 2 ^ 65 * one) (k : Nat) :
    (scaleDown x k).Proper := by
  have hsmall : x.units ≤ 2 ^ 70 * one :=
    Nat.le_trans hx (Nat.mul_le_mul_right _ (by decide))
  unfold scaleDown
  split
  · exact Binary64.proper_div hsmall (Binary64.one_le_units_powerOfTen ‹_›)
  · split
    · have hone := Binary64.one_le_units_powerOfTen (Nat.le_refl 308)
      refine Binary64.proper_div (Nat.le_trans (Binary64.units_div_le hone) ?_)
        (Binary64.one_le_units_powerOfTen (by omega))
      have hpos := one_pos
      generalize one = b at hx hpos ⊢
      omega
    · exact Binary64.proper_zero false

theorem proper_of_scaleUp? {x y : Binary64} {k : Nat} (hx : x.Proper)
    (h : scaleUp? x k = some y) : y.Proper := by
  unfold scaleUp? at h
  split at h
  · cases h
    exact hx
  · split at h
    · cases h
    · dsimp only at h
      split at h
      · rename_i hfinite
        obtain rfl := Option.some.inj h
        exact Binary64.proper_mul hfinite
      · cases h

theorem isSome_scaleUp? {m k : Nat}
    (h : 2 * (m * 10 ^ k) * (2 ^ 53 + 1) ^ 2 < 2 ^ 106 * ((2 ^ 54 - 1) * topPlace)) :
    (scaleUp? (.ofNat m) k).isSome := by
  unfold scaleUp?
  split
  · rfl
  · rename_i hunits
    have hm : 0 < m := by
      refine Nat.pos_of_ne_zero ?_
      rintro rfl
      exact hunits Binary64.units_ofNat_zero
    have hk : ¬ 308 < k := by
      intro (hlong : 309 ≤ k)
      have hpow : 10 ^ 309 ≤ m * 10 ^ k :=
        Nat.le_trans (pow_le_pow_right₀ (by decide) hlong) (Nat.le_mul_of_pos_left _ hm)
      have hhuge : 2 ^ 106 * ((2 ^ 54 - 1) * topPlace) ≤ 2 * 10 ^ 309 * (2 ^ 53 + 1) ^ 2 := by
        decide +kernel
      exact absurd (Nat.lt_of_le_of_lt (Nat.mul_le_mul_right _ (Nat.mul_le_mul_left 2 hpow)) h)
        (Nat.not_lt.mpr hhuge)
    have hfinite : ((Binary64.ofNat m).mul (Binary64.powerOfTen k)).isFinite = true :=
      Binary64.isFinite_mul_ofNat h
    rw [if_neg hk]
    dsimp only
    rw [if_pos hfinite]
    rfl

theorem absorb_lt {n : Nat} (h : n < 2 ^ 64) (ds : List Nat) : (absorb n ds).1 < 2 ^ 64 := by
  induction ds generalizing n with
  | nil => exact h
  | cons d ds ih =>
      simp only [absorb]
      split
      · exact ih ‹_›
      · exact h

theorem length_absorb_le (n : Nat) (ds : List Nat) : (absorb n ds).2.length ≤ ds.length := by
  induction ds generalizing n with
  | nil => exact Nat.le_refl _
  | cons d ds ih =>
      simp only [absorb]
      split
      · exact Nat.le_succ_of_le (ih _)
      · exact Nat.le_refl _

end Json

end InbandTrace
