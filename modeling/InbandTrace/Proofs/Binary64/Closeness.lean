import InbandTrace.Proofs.Binary64.Nearest
import InbandTrace.Proofs.Binary64.Bounds
import Mathlib.Algebra.Order.Field.Power
import Mathlib.Algebra.Order.Field.Rat
import Mathlib.Data.Rat.Cast.Order
import Mathlib.Tactic.FieldSimp
import Mathlib.Tactic.Linarith

namespace InbandTrace

/-- What one rounding can make of one, with some room. -/
def spread : ℚ := 1 + 1 / 2 ^ 52

theorem one_le_spread : 1 ≤ spread := by
  norm_num [spread]

theorem spread_pow_pos (k : ℕ) : 0 < spread ^ k :=
  pow_pos (lt_of_lt_of_le one_pos one_le_spread) k

/-- Neither of two amounts is larger than the other by more than so many roundings. -/
structure Close (k : ℕ) (x y : ℚ) : Prop where
  nonneg : 0 ≤ x
  le : x ≤ y * spread ^ k
  ge : y ≤ x * spread ^ k

namespace Close

variable {j k : ℕ} {x y z u v : ℚ}

theorem refl (h : 0 ≤ x) : Close 0 x x := ⟨h, by simp, by simp⟩

theorem nonneg_right (h : Close k x y) : 0 ≤ y :=
  nonneg_of_mul_nonneg_left (h.nonneg.trans h.le) (spread_pow_pos k)

theorem trans (hxy : Close j x y) (hyz : Close k y z) : Close (j + k) x z := by
  refine ⟨hxy.nonneg, ?_, ?_⟩
  · calc x ≤ y * spread ^ j := hxy.le
      _ ≤ z * spread ^ k * spread ^ j :=
          mul_le_mul_of_nonneg_right hyz.le (spread_pow_pos j).le
      _ = z * spread ^ (j + k) := by ring
  · calc z ≤ y * spread ^ k := hyz.ge
      _ ≤ x * spread ^ j * spread ^ k :=
          mul_le_mul_of_nonneg_right hxy.ge (spread_pow_pos k).le
      _ = x * spread ^ (j + k) := by ring

theorem mul (hxy : Close j x y) (huv : Close k u v) : Close (j + k) (x * u) (y * v) := by
  refine ⟨mul_nonneg hxy.nonneg huv.nonneg, ?_, ?_⟩
  · calc x * u ≤ y * spread ^ j * (v * spread ^ k) :=
          mul_le_mul hxy.le huv.le huv.nonneg (hxy.nonneg.trans hxy.le)
      _ = y * v * spread ^ (j + k) := by ring
  · calc y * v ≤ x * spread ^ j * (u * spread ^ k) :=
          mul_le_mul hxy.ge huv.ge huv.nonneg_right (hxy.nonneg_right.trans hxy.ge)
      _ = x * u * spread ^ (j + k) := by ring

theorem add (hxy : Close k x y) (huv : Close k u v) : Close k (x + u) (y + v) := by
  refine ⟨add_nonneg hxy.nonneg huv.nonneg, ?_, ?_⟩
  · rw [add_mul]
    exact add_le_add hxy.le huv.le
  · rw [add_mul]
    exact add_le_add hxy.ge huv.ge

theorem pos (h : Close k x y) (hy : 0 < y) : 0 < x :=
  pos_of_mul_pos_left (hy.trans_le h.ge) (spread_pow_pos k).le

theorem inv (h : Close k x y) (hy : 0 < y) : Close k x⁻¹ y⁻¹ := by
  have hx := h.pos hy
  refine ⟨(inv_pos.mpr hx).le, ?_, ?_⟩
  · rw [inv_le_iff_one_le_mul₀ hx, mul_comm, ← mul_assoc, ← div_eq_mul_inv, ← mul_div_right_comm]
    exact (one_le_div hy).mpr h.ge
  · rw [inv_le_iff_one_le_mul₀ hy, mul_comm, ← mul_assoc, ← div_eq_mul_inv, ← mul_div_right_comm]
    exact (one_le_div hx).mpr h.le

theorem div (hxy : Close j x y) (huv : Close k u v) (hv : 0 < v) :
    Close (j + k) (x / u) (y / v) := by
  rw [div_eq_mul_inv, div_eq_mul_inv]
  exact hxy.mul (huv.inv hv)

theorem of_half {a b : ℕ} (hhigh : a * 2 ^ 53 ≤ b * 2 ^ 53 + b)
    (hlow : b * 2 ^ 53 ≤ a * 2 ^ 53 + b) : Close 1 (a : ℚ) b := by
  have hhigh' : (a * 2 ^ 53 : ℚ) ≤ b * 2 ^ 53 + b := by exact_mod_cast hhigh
  have hlow' : (b * 2 ^ 53 : ℚ) ≤ a * 2 ^ 53 + b := by exact_mod_cast hlow
  have ha : (0 : ℚ) ≤ a := Nat.cast_nonneg a
  have hb : (0 : ℚ) ≤ b := Nat.cast_nonneg b
  refine ⟨ha, ?_, ?_⟩
  · rw [pow_one, spread]
    linarith
  · rw [pow_one, spread]
    linarith

theorem mono (h : Close j x y) (hjk : j ≤ k) : Close k x y := by
  have hpow : spread ^ j ≤ spread ^ k := pow_le_pow_right₀ one_le_spread hjk
  exact ⟨h.nonneg, h.le.trans (mul_le_mul_of_nonneg_left hpow h.nonneg_right),
    h.ge.trans (mul_le_mul_of_nonneg_left hpow h.nonneg)⟩

end Close

theorem roundHalfEven_of_close {num den n : ℕ} (hden : 0 < den) (hn : n < 2 ^ 36)
    (h : Close 9 (num : ℚ) (den * n)) : roundHalfEven num den = n := by
  have hden' : (0 : ℚ) < den := by exact_mod_cast hden
  have hspread : spread ^ 9 ≤ 1 + 1 / 2 ^ 48 := by norm_num [spread]
  have hroom : (den * n : ℚ) < 2 ^ 36 * den := by
    rw [mul_comm]
    exact mul_lt_mul_of_pos_right (by exact_mod_cast hn) hden'
  have hhigh : (num : ℚ) ≤ den * n * (1 + 1 / 2 ^ 48) :=
    h.le.trans (mul_le_mul_of_nonneg_left hspread h.nonneg_right)
  have hlow : (den * n : ℚ) ≤ num * (1 + 1 / 2 ^ 48) :=
    h.ge.trans (mul_le_mul_of_nonneg_left hspread h.nonneg)
  -- Nine roundings of less than 2 ^ 36 come to less than 2 ^ -11.
  have hbelow : (2 * num : ℚ) < 2 * (den * n) + den := by linarith
  have habove : (2 * (den * n) : ℚ) < 2 * num + den := by linarith
  have hbelow' : 2 * num < 2 * (den * n) + den := by exact_mod_cast hbelow
  have habove' : 2 * (den * n) < 2 * num + den := by exact_mod_cast habove
  exact roundHalfEven_eq hden habove'.le hbelow'.le fun _ => ⟨habove', hbelow'⟩

namespace Binary64

def value (x : Binary64) : ℚ := x.units / one

-- Below the least normal double and above the greatest one a rounding is no relative error.
def Moderate (n : ℕ) (v : ℚ) : Prop := v = 0 ∨ 1 / 2 ^ n ≤ v ∧ v ≤ 2 ^ n

theorem Moderate.mono {k n : ℕ} {v : ℚ} (h : Moderate k v) (hkn : k ≤ n) : Moderate n v := by
  have hpow : (2 : ℚ) ^ k ≤ 2 ^ n := pow_le_pow_right₀ one_le_two hkn
  refine h.imp_right fun ⟨hlow, hhigh⟩ => ⟨?_, hhigh.trans hpow⟩
  exact (one_div_le_one_div_of_le (by positivity) hpow).trans hlow

theorem Moderate.of_close {k n : ℕ} {x y : ℚ} (h : Moderate n y) (hclose : Close k x y)
    (hk : k ≤ 16) : Moderate (n + 1) x := by
  have htwo : spread ^ 16 ≤ 2 := by norm_num [spread]
  have hle := (hclose.mono hk).le
  have hge := (hclose.mono hk).ge
  have hx := hclose.nonneg
  have hy := hclose.nonneg_right
  rcases h with rfl | ⟨hlow, hhigh⟩
  · exact .inl (le_antisymm (by simpa using hle) hx)
  · refine .inr ⟨?_, ?_⟩
    · have hdouble : y ≤ x * 2 := hge.trans (mul_le_mul_of_nonneg_left htwo hx)
      rw [pow_succ, ← div_div, div_le_iff₀ two_pos]
      exact hlow.trans hdouble
    · have hdouble : x ≤ y * 2 := hle.trans (mul_le_mul_of_nonneg_left htwo hy)
      rw [pow_succ]
      exact hdouble.trans (mul_le_mul_of_nonneg_right hhigh two_pos.le)

theorem moderate_div {k n d : ℕ} (hd : 0 < d) (hn : n ≤ 2 ^ k) (hd' : d ≤ 2 ^ k) :
    Moderate k (n / d) := by
  have hnum : (n : ℚ) ≤ 2 ^ k := by exact_mod_cast hn
  have hden : (d : ℚ) ≤ 2 ^ k := by exact_mod_cast hd'
  have hden_one : (1 : ℚ) ≤ d := by exact_mod_cast hd
  rcases Nat.eq_zero_or_pos n with rfl | hpos
  · exact .inl (by rw [Nat.cast_zero, zero_div])
  · have hnum_one : (1 : ℚ) ≤ n := by exact_mod_cast hpos
    refine .inr ⟨div_le_div₀ (Nat.cast_nonneg n) hnum_one (zero_lt_one.trans_le hden_one) hden, ?_⟩
    calc (n / d : ℚ) ≤ 2 ^ k / 1 := div_le_div₀ (by positivity) hnum zero_lt_one hden_one
      _ = 2 ^ k := div_one _

theorem moderate_natCast {k n : ℕ} (h : n ≤ 2 ^ k) : Moderate k n := by
  have hquotient := moderate_div Nat.one_pos h Nat.one_le_two_pow
  rwa [Nat.cast_one, div_one] at hquotient

attribute [local irreducible] one topPlace

section

variable {negative : Bool} {num den : Nat}

theorem le_units_ofUnits_mul (h : den * 2 ^ 52 ≤ num) (hden : 0 < den)
    (hfinite : (ofUnits negative num den).isFinite = true) :
    num * 2 ^ 53 ≤ (ofUnits negative num den).units * den * 2 ^ 53 + num := by
  rw [show (ofUnits negative num den).units = _ from units_normalize hfinite]
  have hround := le_two_mul_roundHalfEven num
    (Nat.mul_pos hden (Nat.two_pow_pos (scale (num / den))))
  have hquotient : 2 ^ 52 ≤ num / den :=
    (Nat.le_div_iff_mul_le hden).mpr (Nat.mul_comm den _ ▸ h)
  have hlast : den * 2 ^ scale (num / den) * 2 ^ 52 ≤ num := by
    have hle := Nat.mul_le_mul_left den (two_pow_scale_le hquotient)
    calc den * 2 ^ scale (num / den) * 2 ^ 52 = den * (2 ^ 52 * 2 ^ scale (num / den)) := by ring
      _ ≤ num := Nat.le_trans hle (Nat.mul_div_le num den)
  generalize roundHalfEven num (den * 2 ^ scale (num / den)) = m at hround ⊢
  generalize 2 ^ scale (num / den) = b at hround hlast ⊢
  calc num * 2 ^ 53 = 2 * num * 2 ^ 52 := by ring
    _ ≤ (2 * (den * b * m) + den * b) * 2 ^ 52 := Nat.mul_le_mul_right _ hround
    _ = m * b * den * 2 ^ 53 + den * b * 2 ^ 52 := by ring
    _ ≤ m * b * den * 2 ^ 53 + num := Nat.add_le_add_left hlast _

theorem units_ofUnits_zero (negative : Bool) (den : Nat) : (ofUnits negative 0 den).units = 0 := by
  have hscale : scale (0 / den) = 0 := by
    rw [Nat.zero_div]
    rfl
  have hmantissa : roundHalfEven 0 (den * 2 ^ 0) = 0 := by simp [roundHalfEven]
  unfold ofUnits
  rw [hscale, hmantissa, units_normalize (isFinite_normalize (by decide) (by decide)),
    Nat.zero_mul]

theorem bounds_of_moderate (hden : 0 < den) (hlow : 1 / 2 ^ 200 ≤ (num : ℚ) / (den * one))
    (hhigh : (num : ℚ) / (den * one) ≤ 2 ^ 200) :
    den * 2 ^ 52 ≤ num ∧ 2 * num < den * ((2 ^ 54 - 1) * lastUnit) := by
  have hpos : (0 : ℚ) < den * one := by
    exact_mod_cast Nat.mul_pos hden one_pos
  rw [div_le_div_iff₀ (by positivity) hpos, one_mul] at hlow
  rw [div_le_iff₀ hpos] at hhigh
  have hlow' : den * one ≤ num * 2 ^ 200 := by exact_mod_cast hlow
  have hhigh' : num ≤ 2 ^ 200 * (den * one) := by exact_mod_cast hhigh
  have hone : 2 ^ 252 ≤ one := two_pow_le_one (by decide)
  have htop : 2 ^ 200 ≤ topPlace := two_pow_le_topPlace (by decide)
  constructor
  · refine Nat.le_of_mul_le_mul_right (c := 2 ^ 200) ?_ (Nat.two_pow_pos _)
    calc den * 2 ^ 52 * 2 ^ 200 = den * 2 ^ 252 := by rw [Nat.mul_assoc, ← Nat.pow_add]
      _ ≤ den * one := Nat.mul_le_mul_left _ hone
      _ ≤ num * 2 ^ 200 := hlow'
  · have hunit : 0 < den * one := Nat.mul_pos hden one_pos
    calc 2 * num ≤ 2 * (2 ^ 200 * (den * one)) := Nat.mul_le_mul_left _ hhigh'
      _ ≤ 2 * (topPlace * (den * one)) := Nat.mul_le_mul_left _ (Nat.mul_le_mul_right _ htop)
      _ < (2 ^ 54 - 1) * (topPlace * (den * one)) := by
          refine Nat.mul_lt_mul_of_pos_right (by decide) (Nat.mul_pos ?_ hunit)
          exact Nat.lt_of_lt_of_le (Nat.two_pow_pos _) htop
      _ = den * ((2 ^ 54 - 1) * lastUnit) := by
          rw [lastUnit]
          ring

theorem close_ofUnits (hden : 0 < den) (h : Moderate 200 (num / (den * one))) :
    Close 1 (ofUnits negative num den).value (num / (den * one)) := by
  have hone : (0 : ℚ) < one := by exact_mod_cast one_pos
  have hden' : (0 : ℚ) < den := by exact_mod_cast hden
  -- Zero stays zero, and everything else has all its 53 digits.
  rcases h with hzero | ⟨hlow, hhigh⟩
  · have hnum : num = 0 := by
      rcases div_eq_zero_iff.mp hzero with hnum | hnone
      · exact_mod_cast hnum
      · exact absurd hnone (mul_pos hden' hone).ne'
    subst hnum
    rw [value, units_ofUnits_zero, Nat.cast_zero, zero_div, zero_div]
    exact (Close.refl le_rfl).mono (Nat.zero_le 1)
  · obtain ⟨hlarge, hsmall⟩ := bounds_of_moderate hden hlow hhigh
    have hfinite : (ofUnits negative num den).isFinite = true := isFinite_ofUnits hden hsmall
    have habove : (ofUnits negative num den).units * den * 2 ^ 53 ≤ num * (2 ^ 53 + 1) :=
      units_ofUnits_mul_le hlarge hden
    have hclose := (Close.of_half (by omega) (le_units_ofUnits_mul hlarge hden hfinite)).div
      (.refl (mul_pos hden' hone).le) (mul_pos hden' hone)
    rwa [Nat.cast_mul, mul_comm, mul_div_mul_left _ _ hden'.ne'] at hclose

theorem close_ofUnits_of_close {k : ℕ} {v : ℚ} (hden : 0 < den) (hv : Moderate 199 v)
    (h : Close k (num / (den * one)) v) (hk : k ≤ 16) :
    Close (k + 1) (ofUnits negative num den).value v := by
  rw [Nat.add_comm]
  exact (close_ofUnits hden (hv.of_close h hk)).trans h

end

section

variable {x y : Binary64} {j k : ℕ} {a b : ℚ}

theorem cast_one_pos : (0 : ℚ) < one := by
  exact_mod_cast one_pos

theorem units_pos_of_value (h : 0 < x.value) : 0 < x.units := by
  rw [value, div_pos_iff_of_pos_right cast_one_pos] at h
  exact_mod_cast h

theorem value_ofNat {n : Nat} (h : n < 2 ^ 53) : (ofNat n).value = n := by
  rw [value, units_ofNat h, Nat.cast_mul, mul_div_cancel_right₀ _ cast_one_pos.ne']

theorem close_ofNat_of_lt {n : Nat} (h : n < 2 ^ 53) : Close 0 (ofNat n).value n := by
  rw [value_ofNat h]
  exact .refl (Nat.cast_nonneg n)

theorem close_ofNat {n : Nat} (h : Moderate 199 n) : Close 1 (ofNat n).value n := by
  have hvalue : ((n * one : ℕ) : ℚ) / ((1 : ℕ) * one) = n := by
    rw [Nat.cast_mul, Nat.cast_one, one_mul, mul_div_cancel_right₀ _ cast_one_pos.ne']
  rw [ofNat_eq]
  refine close_ofUnits_of_close (k := 0) (by decide) h ?_ (by decide)
  rw [hvalue]
  exact .refl (Nat.cast_nonneg n)

theorem close_mul (hx : Close j x.value a) (hy : Close k y.value b) (hjk : j + k ≤ 16)
    (h : Moderate 199 (a * b)) : Close (j + k + 1) (x.mul y).value (a * b) := by
  have hone := cast_one_pos
  have hvalue : ((x.units * y.units * one : ℕ) : ℚ) / ((one * one : ℕ) * one) =
      x.value * y.value := by
    push_cast
    rw [value, value]
    field_simp
  rw [mul_eq]
  refine close_ofUnits_of_close (Nat.mul_pos one_pos one_pos) h ?_ hjk
  rw [hvalue]
  exact hx.mul hy

theorem close_div (hx : Close j x.value a) (hy : Close k y.value b) (hb : 0 < b)
    (hjk : j + k ≤ 16) (h : Moderate 199 (a / b)) : Close (j + k + 1) (x.div y).value (a / b) := by
  have hone := cast_one_pos
  have hunits := units_pos_of_value (hy.pos hb)
  have hvalue : ((x.units * one : ℕ) : ℚ) / (y.units * one) = x.value / y.value := by
    push_cast
    rw [value, value]
    field_simp
  rw [div_eq]
  refine close_ofUnits_of_close hunits h ?_ hjk
  rw [hvalue]
  exact hx.div hy hb

theorem close_add (hx : Close k x.value a) (hy : Close k y.value b) (hk : k ≤ 16)
    (h : Moderate 199 (a + b)) : Close (k + 1) (x.add y).value (a + b) := by
  have hone := cast_one_pos
  have hvalue : (((x.units + y.units) * one : ℕ) : ℚ) / (one * one) = x.value + y.value := by
    push_cast
    rw [value, value]
    field_simp
  rw [add_eq]
  refine close_ofUnits_of_close one_pos h ?_ hk
  rw [hvalue]
  exact hx.add hy

end

end Binary64

end InbandTrace
