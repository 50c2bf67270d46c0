import InbandTrace.Proofs.Binary64.Rounding

namespace InbandTrace.Binary64

theorem add_eq (x y : Binary64) : x.add y = ofUnits false ((x.units + y.units) * one) one := rfl

variable {negative : Bool} {m e num den : Nat}

theorem le_units_ofUnits (hm : 2 ^ 52 ≤ m) (hm' : m < 2 ^ 53) (hden : 0 < den)
    (h : den * (m * 2 ^ e) ≤ num) (hfinite : (ofUnits negative num den).isFinite = true) :
    m * 2 ^ e ≤ (ofUnits negative num den).units := by
  unfold ofUnits at hfinite ⊢
  have hquotient : m * 2 ^ e ≤ num / den :=
    (Nat.le_div_iff_mul_le hden).mpr (Nat.mul_comm den _ ▸ h)
  have hscale : e ≤ scale (num / den) :=
    le_scale (Nat.le_trans (Nat.mul_le_mul_right _ hm) hquotient)
  have hround := div_le_roundHalfEven num (den * 2 ^ scale (num / den))
  rw [← Nat.div_div_eq_div_mul] at hround
  rw [units_normalize hfinite]
  refine Nat.le_trans ?_ (Nat.mul_le_mul_right _ hround)
  obtain hsame | hless := Nat.eq_or_lt_of_le hscale
  · rw [← hsame]
    exact Nat.mul_le_mul_right _ ((Nat.le_div_iff_mul_le (Nat.two_pow_pos e)).mpr hquotient)
  · have hlead : 2 ^ 52 ≤ num / den / 2 ^ scale (num / den) :=
      (Nat.le_div_iff_mul_le (Nat.two_pow_pos _)).mpr
        (two_pow_scale_le (two_pow_le_of_scale_ne_zero (Nat.ne_zero_of_lt hless)))
    calc m * 2 ^ e ≤ 2 ^ 53 * 2 ^ e := Nat.mul_le_mul_right _ (Nat.le_of_lt hm')
      _ = 2 ^ 52 * 2 ^ (e + 1) := by ring
      _ ≤ 2 ^ 52 * 2 ^ scale (num / den) :=
          Nat.mul_le_mul_left _ (Nat.pow_le_pow_right (by decide) hless)
      _ ≤ _ := Nat.mul_le_mul_right _ hlead

theorem units_ofUnits_le_of_lt (hm : 2 ^ 52 ≤ m) (hm' : m < 2 ^ 53) (hden : 0 < den)
    (h : 2 * num < den * ((2 * m + 1) * 2 ^ e)) : (ofUnits negative num den).units ≤ m * 2 ^ e := by
  cases hfinite : (ofUnits negative num den).isFinite with
  | false =>
      rw [units_of_not_isFinite hfinite]
      exact Nat.zero_le _
  | true =>
      unfold ofUnits at hfinite ⊢
      rw [units_normalize hfinite]
      have hscale : scale (num / den) ≤ e := by
        refine scale_le_of_lt ((Nat.div_lt_iff_lt_mul hden).mpr ?_)
        have hroom : den * ((2 * m + 1) * 2 ^ e) ≤ 2 * (2 ^ (e + 53) * den) := by
          calc den * ((2 * m + 1) * 2 ^ e) ≤ den * (2 * 2 ^ 53 * 2 ^ e) :=
                Nat.mul_le_mul_left _ (Nat.mul_le_mul_right _ (by omega))
            _ = 2 * (2 ^ (e + 53) * den) := by ring
        omega
      obtain hsame | hless := Nat.eq_or_lt_of_le hscale
      · rw [hsame]
        have hround := two_mul_roundHalfEven_le num (den * 2 ^ e)
        have hpos : 0 < den * 2 ^ e := Nat.mul_pos hden (Nat.two_pow_pos e)
        rw [show den * ((2 * m + 1) * 2 ^ e) = 2 * (den * 2 ^ e * m) + den * 2 ^ e by ring] at h
        refine Nat.mul_le_mul_right _ (Nat.le_of_lt_succ ?_)
        refine Nat.lt_of_mul_lt_mul_left (a := den * 2 ^ e) ?_
        rw [Nat.mul_succ]
        omega
      · calc _ ≤ 2 ^ 53 * 2 ^ scale (num / den) := Nat.mul_le_mul_right _ (mantissa_le num den)
          _ = 2 ^ 52 * 2 ^ (scale (num / den) + 1) := by ring
          _ ≤ 2 ^ 52 * 2 ^ e := Nat.mul_le_mul_left _ (Nat.pow_le_pow_right (by decide) hless)
          _ ≤ m * 2 ^ e := Nat.mul_le_mul_right _ hm

end InbandTrace.Binary64
