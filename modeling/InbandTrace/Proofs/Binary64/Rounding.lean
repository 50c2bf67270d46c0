import InbandTrace.Json.Numeral
import Mathlib.Tactic.Ring
import Mathlib.Tactic.Positivity
import Mathlib.Tactic.GCongr
import Mathlib.Tactic.NormNum

namespace InbandTrace

section

variable {num den : Nat}

theorem div_le_roundHalfEven (num den : Nat) : num / den ≤ roundHalfEven num den := by
  unfold roundHalfEven
  dsimp only
  split
  · exact Nat.le_refl _
  · split <;> omega

theorem roundHalfEven_le_div (num den : Nat) : roundHalfEven num den ≤ num / den + 1 := by
  unfold roundHalfEven
  dsimp only
  split
  · omega
  · split <;> omega

theorem two_mul_roundHalfEven_le (num den : Nat) :
    2 * (den * roundHalfEven num den) ≤ 2 * num + den := by
  have hsplit : den * (num / den) + num % den = num := Nat.div_add_mod num den
  unfold roundHalfEven
  dsimp only
  split
  · omega
  · split
    · rw [Nat.mul_add, Nat.mul_one]
      omega
    · have hparity : num / den % 2 ≤ 1 := by omega
      have hle : den * (num / den + num / den % 2) ≤ den * (num / den + 1) :=
        Nat.mul_le_mul_left _ (by omega)
      rw [Nat.mul_add den (num / den) 1, Nat.mul_one] at hle
      omega

theorem le_two_mul_roundHalfEven (num : Nat) (hden : 0 < den) :
    2 * num ≤ 2 * (den * roundHalfEven num den) + den := by
  have hsplit : den * (num / den) + num % den = num := Nat.div_add_mod num den
  unfold roundHalfEven
  dsimp only
  split
  · omega
  · split
    · have hlt := Nat.mod_lt num hden
      rw [Nat.mul_add, Nat.mul_one]
      omega
    · have hle : den * (num / den) ≤ den * (num / den + num / den % 2) :=
        Nat.mul_le_mul_left _ (Nat.le_add_right _ _)
      omega

end

namespace Binary64

/-- The leading bit of the mantissa is set unless the exponent is the least. -/
def Leads (m e : Nat) : Prop := e = 0 ∨ 2 ^ 52 ≤ m

def Proper : Binary64 → Prop
  | finite _ m e => m < 2 ^ 53 ∧ e ≤ 2045 ∧ Leads m e
  | _ => False

theorem proper_negate {x : Binary64} : x.negate.Proper ↔ x.Proper := by
  cases x <;> rfl

theorem proper_zero (negative : Bool) : (zero negative).Proper :=
  ⟨by decide, by decide, .inl rfl⟩

def topPlace : Nat := 2 ^ 971

def lastUnit : Nat := topPlace * one

theorem exists_one : ∃ k, k = 1074 ∧ one = 2 ^ k := ⟨1074, rfl, by decide +kernel⟩

theorem exists_topPlace : ∃ k, k = 971 ∧ topPlace = 2 ^ k := ⟨971, rfl, rfl⟩

theorem exists_lastUnit : ∃ k, k = 2045 ∧ 2 ^ k = lastUnit := by
  obtain ⟨k, hk, hone⟩ := exists_one
  obtain ⟨j, hj, htop⟩ := exists_topPlace
  exact ⟨j + k, by omega, by rw [lastUnit, hone, htop, Nat.pow_add]⟩

theorem two_pow_le_one {n : Nat} (hn : n ≤ 1074) : 2 ^ n ≤ one := by
  obtain ⟨k, hk, hone⟩ := exists_one
  rw [hone]
  exact Nat.pow_le_pow_right (by decide) (hk ▸ hn)

theorem one_pos : 0 < one := two_pow_le_one (Nat.zero_le _)

theorem two_pow_le_topPlace {n : Nat} (hn : n ≤ 971) : 2 ^ n ≤ topPlace := by
  obtain ⟨k, hk, htop⟩ := exists_topPlace
  rw [htop]
  exact Nat.pow_le_pow_right (by decide) (hk ▸ hn)

section

variable {negative : Bool} {m e : Nat}

theorem proper_normalize (hm : m ≤ 2 ^ 53) (hlead : Leads m e)
    (h : (normalize negative m e).isFinite = true) : (normalize negative m e).Proper := by
  unfold normalize at h ⊢
  by_cases hcarry : m = 2 * hidden
  · simp only [if_pos hcarry] at h ⊢
    split at h
    · cases h
    · rw [if_neg ‹_›]
      exact ⟨by decide, by omega, .inr (Nat.le_refl hidden)⟩
  · simp only [if_neg hcarry] at h ⊢
    split at h
    · cases h
    · rw [if_neg ‹_›]
      exact ⟨Nat.lt_of_le_of_ne hm hcarry, by omega, hlead⟩

theorem units_normalize (h : (normalize negative m e).isFinite = true) :
    (normalize negative m e).units = m * 2 ^ e := by
  unfold normalize at h ⊢
  by_cases hcarry : m = 2 * hidden
  · simp only [if_pos hcarry] at h ⊢
    split at h
    · cases h
    · rw [if_neg ‹_›, hcarry]
      change hidden * 2 ^ (e + 1) = 2 * hidden * 2 ^ e
      ring
  · simp only [if_neg hcarry] at h ⊢
    split at h
    · cases h
    · rw [if_neg ‹_›]
      rfl

theorem isFinite_normalize (he : e ≤ 2045) (h : e = 2045 → m < 2 ^ 53) :
    (normalize negative m e).isFinite = true := by
  unfold normalize
  by_cases hcarry : m = 2 * hidden
  · have hlt : e ≠ 2045 := fun hlast => absurd (h hlast) (by rw [hcarry]; decide)
    simp only [if_pos hcarry]
    rw [if_neg (by omega)]
    rfl
  · simp only [if_neg hcarry]
    rw [if_neg (by omega)]
    rfl

end

def scale (q : Nat) : Nat := Nat.log2 q - 52

section

variable {q : Nat}

theorem lt_two_pow_scale (q : Nat) : q < 2 ^ 53 * 2 ^ scale q := by
  have hlog : q < 2 ^ (q.log2 + 1) := Nat.lt_log2_self
  rw [← Nat.pow_add]
  exact Nat.lt_of_lt_of_le hlog (Nat.pow_le_pow_right (by omega) (by unfold scale; omega))

theorem two_pow_scale_le (h : 2 ^ 52 ≤ q) : 2 ^ 52 * 2 ^ scale q ≤ q := by
  have hpos : q ≠ 0 := by
    rintro rfl
    exact absurd h (by decide)
  have hlog : 52 ≤ q.log2 := (Nat.le_log2 hpos).mpr h
  rw [← Nat.pow_add, show 52 + scale q = q.log2 by unfold scale; omega]
  exact Nat.log2_self_le hpos

theorem le_scale {k : Nat} (h : 2 ^ 52 * 2 ^ k ≤ q) : k ≤ scale q := by
  rw [← Nat.pow_add] at h
  have hpos : q ≠ 0 := Nat.ne_of_gt (Nat.lt_of_lt_of_le (Nat.two_pow_pos _) h)
  have hlog : 52 + k ≤ q.log2 := (Nat.le_log2 hpos).mpr h
  unfold scale
  omega

theorem two_pow_le_of_scale_ne_zero (h : scale q ≠ 0) : 2 ^ 52 ≤ q := by
  have hlog : 52 ≤ q.log2 := by
    unfold scale at h
    omega
  have hpos : q ≠ 0 := by
    rintro rfl
    exact absurd hlog (by decide)
  exact (Nat.le_log2 hpos).mp hlog

theorem two_pow_scale_le_succ (q : Nat) : 2 ^ scale q ≤ q + 1 := by
  by_cases h : 2 ^ 52 ≤ q
  · have hle := two_pow_scale_le h
    have hone : 1 * 2 ^ scale q ≤ 2 ^ 52 * 2 ^ scale q := Nat.mul_le_mul_right _ (by decide)
    omega
  · have hzero : scale q = 0 := by
      by_cases hq : q = 0
      · subst hq
        rfl
      · have := (Nat.log2_lt hq).mpr (show q < 2 ^ 53 by omega)
        unfold scale
        omega
    rw [hzero]
    omega

theorem scale_le_of_lt {k : Nat} (h : q < 2 ^ (k + 53)) : scale q ≤ k := by
  by_cases hq : q = 0
  · subst hq
    exact Nat.zero_le k
  · have := (Nat.log2_lt hq).mpr h
    unfold scale
    omega

end

def ofUnits (negative : Bool) (num den : Nat) : Binary64 :=
  normalize negative (roundHalfEven num (den * 2 ^ scale (num / den))) (scale (num / den))

theorem div_eq (x y : Binary64) :
    x.div y = ofUnits (x.isNegative != y.isNegative) (x.units * one) y.units := rfl

theorem mul_eq (x y : Binary64) :
    x.mul y = ofUnits (x.isNegative != y.isNegative) (x.units * y.units * one) (one * one) := rfl

section

variable {negative : Bool} {num den : Nat}

theorem mantissa_le (num den : Nat) :
    roundHalfEven num (den * 2 ^ scale (num / den)) ≤ 2 ^ 53 := by
  have hlt : num / (den * 2 ^ scale (num / den)) < 2 ^ 53 := by
    rw [← Nat.div_div_eq_div_mul]
    exact (Nat.div_lt_iff_lt_mul (Nat.two_pow_pos _)).mpr (lt_two_pow_scale _)
  have hle := roundHalfEven_le_div num (den * 2 ^ scale (num / den))
  omega

theorem leads_ofUnits (num den : Nat) :
    Leads (roundHalfEven num (den * 2 ^ scale (num / den))) (scale (num / den)) := by
  by_cases hscale : scale (num / den) = 0
  · exact .inl hscale
  · refine .inr (Nat.le_trans ?_ (div_le_roundHalfEven _ _))
    rw [← Nat.div_div_eq_div_mul]
    exact (Nat.le_div_iff_mul_le (Nat.two_pow_pos _)).mpr
      (two_pow_scale_le (two_pow_le_of_scale_ne_zero hscale))

theorem proper_ofUnits (h : (ofUnits negative num den).isFinite = true) :
    (ofUnits negative num den).Proper :=
  proper_normalize (mantissa_le num den) (leads_ofUnits num den) h

theorem units_of_not_isFinite {x : Binary64} (h : x.isFinite = false) : x.units = 0 := by
  cases x with
  | finite s m e => cases h
  | _ => rfl

theorem isFinite_ofUnits (hden : 0 < den) (h : 2 * num < den * ((2 ^ 54 - 1) * lastUnit)) :
    (ofUnits negative num den).isFinite = true := by
  obtain ⟨k, hk, hlast⟩ := exists_lastUnit
  generalize lastUnit = b at h hlast
  refine isFinite_normalize ?_ ?_
  · refine hk ▸ scale_le_of_lt ((Nat.div_lt_iff_lt_mul hden).mpr ?_)
    rw [Nat.pow_add, hlast]
    have hle : den * ((2 ^ 54 - 1) * b) ≤ den * (2 ^ 54 * b) :=
      Nat.mul_le_mul_left _ (Nat.mul_le_mul_right _ (by decide))
    have hdouble : den * (2 ^ 54 * b) = 2 * (b * 2 ^ 53 * den) := by ring
    omega
  · intro hscale
    rw [hscale, ← hk, hlast]
    have hround := two_mul_roundHalfEven_le num (den * b)
    generalize roundHalfEven num (den * b) = m at hround
    have hsplit : den * ((2 ^ 54 - 1) * b) + den * b = den * b * 2 ^ 54 := by
      ring
    have hlt : den * b * (2 * m) < den * b * 2 ^ 54 := by
      rw [show den * b * (2 * m) = 2 * (den * b * m) by ring]
      omega
    have := Nat.lt_of_mul_lt_mul_left hlt
    omega

theorem units_ofUnits_mul_le (h : den * 2 ^ 52 ≤ num) (hden : 0 < den) :
    (ofUnits negative num den).units * den * 2 ^ 53 ≤ num * (2 ^ 53 + 1) := by
  cases hfinite : (ofUnits negative num den).isFinite with
  | false =>
      rw [units_of_not_isFinite hfinite, Nat.zero_mul, Nat.zero_mul]
      exact Nat.zero_le _
  | true =>
      rw [show (ofUnits negative num den).units = _ from units_normalize hfinite]
      have hround := two_mul_roundHalfEven_le num (den * 2 ^ scale (num / den))
      have hquotient : 2 ^ 52 ≤ num / den :=
        (Nat.le_div_iff_mul_le hden).mpr (Nat.mul_comm den _ ▸ h)
      have hlast : den * 2 ^ scale (num / den) * 2 ^ 52 ≤ num := by
        have hle := Nat.mul_le_mul_left den (two_pow_scale_le hquotient)
        calc den * 2 ^ scale (num / den) * 2 ^ 52
            = den * (2 ^ 52 * 2 ^ scale (num / den)) := by ring
          _ ≤ num := Nat.le_trans hle (Nat.mul_div_le num den)
      generalize roundHalfEven num (den * 2 ^ scale (num / den)) = m at hround ⊢
      generalize 2 ^ scale (num / den) = b at hround hlast ⊢
      calc m * b * den * 2 ^ 53 = 2 * (den * b * m) * 2 ^ 52 := by ring
        _ ≤ (2 * num + den * b) * 2 ^ 52 := Nat.mul_le_mul_right _ hround
        _ = num * 2 ^ 53 + den * b * 2 ^ 52 := by ring
        _ ≤ num * 2 ^ 53 + num := Nat.add_le_add_left hlast _
        _ = num * (2 ^ 53 + 1) := by ring

theorem units_ofUnits_le (negative : Bool) (num den : Nat) :
    (ofUnits negative num den).units ≤ 2 * (num / den) + 1 := by
  cases hfinite : (ofUnits negative num den).isFinite with
  | false =>
      rw [units_of_not_isFinite hfinite]
      omega
  | true =>
      rw [show (ofUnits negative num den).units = _ from units_normalize hfinite]
      have hround := roundHalfEven_le_div num (den * 2 ^ scale (num / den))
      rw [← Nat.div_div_eq_div_mul] at hround
      have hscale := two_pow_scale_le_succ (num / den)
      generalize num / den = q at hround hscale ⊢
      have hfloor : q / 2 ^ scale q * 2 ^ scale q ≤ q := Nat.div_mul_le_self _ _
      calc _ ≤ (q / 2 ^ scale q + 1) * 2 ^ scale q := Nat.mul_le_mul_right _ hround
        _ = q / 2 ^ scale q * 2 ^ scale q + 2 ^ scale q := by ring
        _ ≤ 2 * q + 1 := by omega

theorem two_pow_log2_le_units (h : (ofUnits negative num den).isFinite = true)
    (hquotient : 2 ^ 52 ≤ num / den) :
    2 ^ (num / den).log2 ≤ (ofUnits negative num den).units := by
  have hlog : 52 ≤ (num / den).log2 := by
    refine (Nat.le_log2 ?_).mpr hquotient
    intro hzero
    rw [hzero] at hquotient
    exact absurd hquotient (by decide)
  rw [show (ofUnits negative num den).units = _ from units_normalize h,
    show (num / den).log2 = 52 + scale (num / den) by unfold scale; omega, Nat.pow_add]
  refine Nat.mul_le_mul_right _ (Nat.le_trans ?_ (div_le_roundHalfEven _ _))
  rw [← Nat.div_div_eq_div_mul]
  exact (Nat.le_div_iff_mul_le (Nat.two_pow_pos _)).mpr (two_pow_scale_le hquotient)

end

section

variable {n : Nat}

theorem ofNat_eq (n : Nat) : ofNat n = ofUnits false (n * one) 1 := rfl

attribute [local irreducible] one ofNat ofUnits

theorem isFinite_ofNat (h : 2 * n < (2 ^ 54 - 1) * topPlace) : (ofNat n).isFinite = true := by
  rw [ofNat_eq]
  refine isFinite_ofUnits (by decide) ?_
  rw [Nat.one_mul, lastUnit, ← Nat.mul_assoc, ← Nat.mul_assoc]
  exact Nat.mul_lt_mul_of_pos_right h one_pos

theorem proper_of_isFinite_ofNat (h : (ofNat n).isFinite = true) : (ofNat n).Proper := by
  rw [ofNat_eq] at h ⊢
  exact proper_ofUnits h

theorem units_ofNat_zero : (ofNat 0).units = 0 := by decide +kernel

theorem units_ofNat_mul_le (n : Nat) :
    (ofNat n).units * 2 ^ 53 ≤ n * (2 ^ 53 + 1) * one := by
  cases n with
  | zero =>
      rw [units_ofNat_zero, Nat.zero_mul]
      exact Nat.zero_le _
  | succ n =>
      have hone : 2 ^ 52 ≤ one := two_pow_le_one (by decide)
      have hlarge : 1 * 2 ^ 52 ≤ (n + 1) * one := by
        rw [Nat.one_mul]
        exact Nat.le_trans hone (Nat.le_mul_of_pos_left _ (Nat.succ_pos n))
      have hle : (ofUnits false ((n + 1) * one) 1).units * 1 * 2 ^ 53 ≤
          (n + 1) * one * (2 ^ 53 + 1) := units_ofUnits_mul_le hlarge (by decide)
      rw [← ofNat_eq, Nat.mul_one, Nat.mul_right_comm] at hle
      exact hle

theorem one_le_units_ofNat (hn : 0 < n) (h : (ofNat n).isFinite = true) :
    one ≤ (ofNat n).units := by
  have hle : one ≤ n * one / 1 := by
    rw [Nat.div_one]
    exact Nat.le_mul_of_pos_left _ hn
  have hquotient : 2 ^ 52 ≤ n * one / 1 := Nat.le_trans (two_pow_le_one (by decide)) hle
  rw [ofNat_eq] at h ⊢
  refine Nat.le_trans ?_ (two_pow_log2_le_units h hquotient)
  obtain ⟨k, -, hk⟩ := exists_one
  have hpos : n * one / 1 ≠ 0 := Nat.ne_of_gt (Nat.lt_of_lt_of_le one_pos hle)
  generalize n * one / 1 = q at hle hpos ⊢
  rw [hk] at hle ⊢
  exact Nat.pow_le_pow_right (by decide) ((Nat.le_log2 hpos).mpr hle)

end

end Binary64

end InbandTrace
