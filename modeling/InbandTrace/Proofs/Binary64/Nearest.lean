import InbandTrace.Proofs.Binary64.Rounding

namespace InbandTrace

theorem roundHalfEven_eq {num den n : Nat} (hden : 0 < den)
    (hlow : 2 * (den * n) ≤ 2 * num + den) (hhigh : 2 * num ≤ 2 * (den * n) + den)
    (hodd : n % 2 = 1 → 2 * (den * n) < 2 * num + den ∧ 2 * num < 2 * (den * n) + den) :
    roundHalfEven num den = n := by
  have hsplit : den * (num / den) + num % den = num := Nat.div_add_mod num den
  have hmod : num % den < den := Nat.mod_lt num hden
  have hle : num / den ≤ n := by
    refine Nat.le_of_lt_succ (Nat.lt_of_mul_lt_mul_left (a := den) ?_)
    rw [Nat.mul_succ]
    omega
  have hge : n ≤ num / den + 1 := by
    refine Nat.le_of_lt_succ (Nat.lt_of_mul_lt_mul_left (a := den) ?_)
    rw [Nat.mul_succ, Nat.mul_succ]
    omega
  unfold roundHalfEven
  dsimp only
  generalize num / den = q at hsplit hle hge ⊢
  obtain rfl | rfl : n = q ∨ n = q + 1 := by omega
  · split
    · rfl
    · split <;> omega
  · rw [Nat.mul_succ] at hlow hhigh hodd
    split
    · omega
    · split <;> omega

theorem roundHalfEven_of_eq {num den n : Nat} (hden : 0 < den) (h : num = den * n) :
    roundHalfEven num den = n :=
  roundHalfEven_eq hden (by omega) (by omega) (by omega)

namespace Binary64

variable {m e num den : Nat} {negative : Bool}

/-- The quotient, in units, lies in the rounding interval of a double. -/
structure Near (m e num den : Nat) : Prop where
  low : den * (interval m e).low ≤ 4 * num
  high : 4 * num ≤ den * (interval m e).high
  odd : m % 2 = 1 → den * (interval m e).low < 4 * num ∧ 4 * num < den * (interval m e).high

theorem normalize_of_lt (hm : m < 2 ^ 53) (he : e ≤ 2045) :
    normalize negative m e = finite negative m e := by
  unfold normalize
  rw [if_neg (show m ≠ 2 * hidden from Nat.ne_of_lt hm)]
  exact if_neg (Nat.not_lt.mpr he)

theorem normalize_carry (he : e + 1 ≤ 2045) :
    normalize negative (2 ^ 53) e = finite negative (2 ^ 52) (e + 1) := by
  unfold normalize
  rw [if_pos (show 2 ^ 53 = 2 * hidden from rfl)]
  exact if_neg (Nat.not_lt.mpr he)

theorem isNegative_normalize (negative : Bool) (m e : Nat) :
    (normalize negative m e).isNegative = negative := by
  unfold normalize
  dsimp only
  split <;> split <;> rfl

namespace Near

section

variable (h : Near m e num den)

include h

theorem below : 2 * num ≤ 2 * (den * 2 ^ e * m) + den * 2 ^ e := by
  have hhigh : 4 * num ≤ den * ((4 * m + 2) * 2 ^ e) := h.high
  rw [show den * ((4 * m + 2) * 2 ^ e) = 2 * (2 * (den * 2 ^ e * m) + den * 2 ^ e) by ring] at hhigh
  omega

theorem above : 2 * (den * 2 ^ e * m) ≤ 2 * num + den * 2 ^ e := by
  have hlow : den * (4 * m * 2 ^ e) ≤ den * ((interval m e).low + 2 * 2 ^ e) := by
    refine Nat.mul_le_mul_left _ ?_
    change _ ≤ (4 * m - if m = hidden ∧ 0 < e then 1 else 2) * 2 ^ e + 2 * 2 ^ e
    rw [← Nat.add_mul]
    refine Nat.mul_le_mul_right _ ?_
    split <;> omega
  have hnum := h.low
  rw [Nat.mul_add, show den * (4 * m * 2 ^ e) = 4 * (den * 2 ^ e * m) by ring,
    show den * (2 * 2 ^ e) = 2 * (den * 2 ^ e) by ring] at hlow
  omega

theorem within_of_odd (hodd : m % 2 = 1) :
    2 * (den * 2 ^ e * m) < 2 * num + den * 2 ^ e ∧
      2 * num < 2 * (den * 2 ^ e * m) + den * 2 ^ e := by
  obtain ⟨hlow, hhigh⟩ := h.odd hodd
  have hmantissa : m ≠ hidden := by
    rintro rfl
    exact absurd hodd (by decide)
  rw [show (interval m e).low = (4 * m - 2) * 2 ^ e by simp [interval, hmantissa]] at hlow
  rw [show (interval m e).high = (4 * m + 2) * 2 ^ e from rfl,
    show den * ((4 * m + 2) * 2 ^ e) = 2 * (2 * (den * 2 ^ e * m) + den * 2 ^ e) by ring] at hhigh
  have hsum : den * ((4 * m - 2) * 2 ^ e) + 2 * (den * 2 ^ e) = 4 * (den * 2 ^ e * m) := by
    obtain ⟨k, rfl⟩ : ∃ k, m = k + 1 := ⟨m - 1, by omega⟩
    rw [show 4 * (k + 1) - 2 = 4 * k + 2 by omega]
    ring
  omega

theorem mantissa_eq (hden : 0 < den) : roundHalfEven num (den * 2 ^ e) = m :=
  roundHalfEven_eq (Nat.mul_pos hden (Nat.two_pow_pos e)) h.above h.below h.within_of_odd

theorem scale_le (hm : m < 2 ^ 53) (hden : 0 < den) : scale (num / den) ≤ e := by
  refine scale_le_of_lt ((Nat.div_lt_iff_lt_mul hden).mpr ?_)
  have hbelow := h.below
  have hpos : 0 < den * 2 ^ e := Nat.mul_pos hden (Nat.two_pow_pos e)
  rw [Nat.pow_add, show 2 ^ e * 2 ^ 53 * den = den * 2 ^ e * 2 ^ 53 by ring]
  generalize den * 2 ^ e = d at hbelow hpos ⊢
  generalize 2 ^ 53 = t at hm ⊢
  have hlast : d * (m + 1) ≤ d * t := Nat.mul_le_mul_left _ hm
  rw [Nat.mul_succ] at hlast
  omega

theorem le_scale_of_lt (hm : 2 ^ 52 < m) (hden : 0 < den) : e ≤ scale (num / den) := by
  refine le_scale ((Nat.le_div_iff_mul_le hden).mpr ?_)
  have habove := h.above
  rw [show 2 ^ 52 * 2 ^ e * den = den * 2 ^ e * 2 ^ 52 by ring]
  generalize den * 2 ^ e = d at habove ⊢
  generalize 2 ^ 52 = t at hm ⊢
  have hfirst : d * (t + 1) ≤ d * m := Nat.mul_le_mul_left _ hm
  rw [Nat.mul_succ] at hfirst
  omega

end

theorem le_num_of_hidden {k : Nat} (h : Near (2 ^ 52) (k + 1) num den) :
    2 * (den * 2 ^ k * 2 ^ 53) ≤ 2 * num + den * 2 ^ k := by
  have hlow : den * ((2 ^ 54 - 1) * 2 ^ (k + 1)) ≤ 4 * num := h.low
  rw [show den * ((2 ^ 54 - 1) * 2 ^ (k + 1)) = 2 * ((2 ^ 54 - 1) * (den * 2 ^ k)) by ring] at hlow
  generalize den * 2 ^ k = d at hlow ⊢
  omega

theorem mul_right {k : Nat} (h : Near m e num den) (hk : 0 < k) : Near m e (num * k) (den * k) := by
  have hnum : 4 * (num * k) = 4 * num * k := (Nat.mul_assoc ..).symm
  refine ⟨?_, ?_, fun hodd => ?_⟩
  · rw [Nat.mul_right_comm, hnum]
    exact Nat.mul_le_mul_right k h.low
  · rw [Nat.mul_right_comm, hnum]
    exact Nat.mul_le_mul_right k h.high
  · obtain ⟨hlow, hhigh⟩ := h.odd hodd
    rw [Nat.mul_right_comm den k, Nat.mul_right_comm den k, hnum]
    exact ⟨Nat.mul_lt_mul_of_pos_right hlow hk, Nat.mul_lt_mul_of_pos_right hhigh hk⟩

theorem ofUnits_eq (h : Near m e num den) (hm : m < 2 ^ 53) (he : e ≤ 2045) (hlead : Leads m e)
    (hden : 0 < den) : ofUnits negative num den = finite negative m e := by
  unfold ofUnits
  obtain hscale | hscale := Nat.eq_or_lt_of_le (h.scale_le hm hden)
  · rw [hscale, h.mantissa_eq hden]
    exact normalize_of_lt hm he
  · have hhidden : m = 2 ^ 52 := by
      have hle := hlead.resolve_left (by omega)
      by_contra hne
      have := h.le_scale_of_lt (Nat.lt_of_le_of_ne hle (Ne.symm hne)) hden
      omega
    subst hhidden
    obtain ⟨k, rfl⟩ : ∃ k, e = k + 1 := ⟨e - 1, by omega⟩
    have hlow := h.le_num_of_hidden
    have hk : scale (num / den) = k := by
      refine Nat.le_antisymm (by omega) (le_scale ((Nat.le_div_iff_mul_le hden).mpr ?_))
      rw [show 2 ^ 52 * 2 ^ k * den = den * 2 ^ k * 2 ^ 52 by ring]
      omega
    have hhigh := lt_two_pow_scale (num / den)
    rw [hk, Nat.div_lt_iff_lt_mul hden, show 2 ^ 53 * 2 ^ k * den = den * 2 ^ k * 2 ^ 53 by ring]
      at hhigh
    have heven : 2 ^ 53 % 2 ≠ 1 := by decide
    rw [hk, roundHalfEven_eq (Nat.mul_pos hden (Nat.two_pow_pos k)) hlow (by omega)
      fun hodd => absurd hodd heven]
    exact normalize_carry he

end Near

theorem units_ofNat {n : Nat} (h : n < 2 ^ 53) : (ofNat n).units = n * one := by
  have hle : 2 ^ 53 ≤ topPlace := two_pow_le_topPlace (by decide)
  have hfinite : (ofNat n).isFinite = true := isFinite_ofNat (by omega)
  obtain ⟨k, -, hone⟩ := exists_one
  rw [ofNat_eq, hone] at hfinite ⊢
  rw [show (ofUnits false (n * 2 ^ k) 1).units = _ from units_normalize hfinite, Nat.one_mul,
    Nat.div_one]
  have hscale : scale (n * 2 ^ k) ≤ k := by
    refine scale_le_of_lt ?_
    rw [Nat.pow_add, Nat.mul_comm n]
    exact Nat.mul_lt_mul_of_pos_left h (Nat.two_pow_pos k)
  obtain ⟨j, hj⟩ := Nat.pow_dvd_pow 2 hscale
  have hmantissa : roundHalfEven (n * 2 ^ k) (2 ^ scale (n * 2 ^ k)) = n * j :=
    roundHalfEven_of_eq (Nat.two_pow_pos _) (by rw [Nat.mul_left_comm, ← hj])
  rw [hmantissa, Nat.mul_assoc, Nat.mul_comm j, ← hj]

theorem isNegative_ofNat (n : Nat) : (ofNat n).isNegative = false := by
  rw [ofNat_eq, ofUnits, isNegative_normalize]

theorem div_ofNat_eq {w d : Nat} (h : Near m e (w * one) d) (hw : w < 2 ^ 53) (hd : d < 2 ^ 53)
    (hpos : 0 < d) (hm : m < 2 ^ 53) (he : e ≤ 2045) (hlead : Leads m e) :
    (ofNat w).div (ofNat d) = finite false m e := by
  rw [div_eq, isNegative_ofNat, isNegative_ofNat, units_ofNat hw, units_ofNat hd]
  exact (h.mul_right one_pos).ofUnits_eq hm he hlead (Nat.mul_pos hpos one_pos)

end Binary64

end InbandTrace
