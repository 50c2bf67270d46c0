import InbandTrace.Proofs.Json.Reread
import InbandTrace.Proofs.Time.Millis

namespace InbandTrace.Json

open Binary64 (one one_pos)

attribute [local irreducible] Binary64.one Span.tooManyExponent

theorem units_scaleDown_le {x : Binary64} (hx : x.units ≤ 2 ^ 65 * one) (k : Nat) :
    (scaleDown x k).units ≤ 2 ^ 68 * one := by
  have hpos := one_pos
  unfold scaleDown
  split
  · have hle := Binary64.units_div_le (x := x) (Binary64.one_le_units_powerOfTen ‹k ≤ 308›)
    omega
  · split
    · have hfirst := Binary64.units_div_le (x := x)
        (Binary64.one_le_units_powerOfTen (Nat.le_refl 308))
      have hsecond := Binary64.units_div_le (x := x.div (Binary64.powerOfTen 308))
        (Binary64.one_le_units_powerOfTen (k := k - 308) (by omega))
      omega
    · exact Nat.le_trans (Nat.le_of_eq (Nat.zero_mul _)) (Nat.zero_le _)

theorem units_mul_ofNat_le {m n : Nat} (hm : one ≤ (Binary64.ofNat m).units)
    (hn : one ≤ (Binary64.ofNat n).units) :
    ((Binary64.ofNat m).mul (.ofNat n)).units * 2 ^ 159 ≤ m * n * (2 ^ 53 + 1) ^ 3 * one := by
  have hpos : 0 < one * one := Nat.mul_pos one_pos one_pos
  have hlarge : 2 ^ 52 ≤ one := Binary64.two_pow_le_one (by decide)
  have hfirst := Binary64.units_ofNat_mul_le m
  have hsecond := Binary64.units_ofNat_mul_le n
  rw [Binary64.mul_eq, Binary64.isNegative_ofNat, Binary64.isNegative_ofNat]
  generalize (Binary64.ofNat m).units = p at hm hfirst ⊢
  generalize (Binary64.ofNat n).units = q at hn hsecond ⊢
  have hthird : (Binary64.ofUnits (false != false) (p * q * one) (one * one)).units * (one * one) *
      2 ^ 53 ≤ p * q * one * (2 ^ 53 + 1) := by
    refine Binary64.units_ofUnits_mul_le ?_ hpos
    exact Nat.mul_le_mul (Nat.mul_le_mul hm hn) hlarge
  generalize (Binary64.ofUnits (false != false) (p * q * one) (one * one)).units = u at hthird ⊢
  refine Nat.le_of_mul_le_mul_right (c := one * one) ?_ hpos
  calc u * 2 ^ 159 * (one * one) = u * (one * one) * 2 ^ 53 * 2 ^ 106 := by ring
    _ ≤ p * q * one * (2 ^ 53 + 1) * 2 ^ 106 := Nat.mul_le_mul_right _ hthird
    _ = p * 2 ^ 53 * (q * 2 ^ 53) * ((2 ^ 53 + 1) * one) := by ring
    _ ≤ m * (2 ^ 53 + 1) * one * (n * (2 ^ 53 + 1) * one) * ((2 ^ 53 + 1) * one) :=
        Nat.mul_le_mul_right _ (Nat.mul_le_mul hfirst hsecond)
    _ = m * n * (2 ^ 53 + 1) ^ 3 * one * (one * one) := by ring

theorem units_scaleUp?_mul_le {m k : Nat} {z : Binary64} (h : scaleUp? (.ofNat m) k = some z) :
    z.units * 2 ^ 159 ≤ m * 10 ^ k * (2 ^ 53 + 1) ^ 3 * one := by
  unfold scaleUp? at h
  split at h
  · rename_i hzero
    obtain rfl := Option.some.inj h
    rw [hzero, Nat.zero_mul]
    exact Nat.zero_le _
  · rename_i hnonzero
    split at h
    · cases h
    · rename_i hk
      dsimp only at h
      split at h
      · rename_i hfinite
        obtain rfl := Option.some.inj h
        have hm : 0 < m := by
          refine Nat.pos_of_ne_zero ?_
          rintro rfl
          exact hnonzero Binary64.units_ofNat_zero
        have hwhole : (Binary64.ofNat m).isFinite = true := by
          by_contra hinfinite
          exact hnonzero (Binary64.units_of_not_isFinite (Bool.eq_false_iff.mpr hinfinite))
        exact units_mul_ofNat_le (Binary64.one_le_units_ofNat hm hwhole)
          (Binary64.one_le_units_powerOfTen (Nat.le_of_not_lt hk))
      · cases h

theorem units_magnitude?_last {m : Nat} {y : Numeral} {z : Binary64}
    (h : Spelling (Binary64.magnitudeText m Span.tooManyExponent) y)
    (hm : m ∈ [125 * 2 ^ 46 - 1, 125 * 2 ^ 46 - 2, 125 * 2 ^ 46 - 3]) (hz : y.magnitude? = some z) :
    z.units < Span.tooMany := by
  -- So close to the limit three roundings could carry a double beyond it: each is looked at.
  have hread : ∀ m ∈ [125 * 2 ^ 46 - 1, 125 * 2 ^ 46 - 2, 125 * 2 ^ 46 - 3],
      ((unsigned false (Binary64.magnitudeText m Span.tooManyExponent ++ [])).bind fun r =>
        r.1.magnitude?).all fun z => decide (z.units < Span.tooMany) := by
    decide +kernel
  have hx := hread m hm
  rw [h.read false [] stops_nil, ← h.positive] at hx
  simpa [hz] using hx

theorem units_magnitude?_lt {m e c n : Nat} {y : Numeral} {z : Binary64} (hm : m < 2 ^ 53)
    (hlead : Binary64.Leads m e) (h : Binary64.Written m e y c n)
    (hlt : m * 2 ^ e < Span.tooMany) (hz : y.magnitude? = some z) : z.units < Span.tooMany := by
  have hpos := one_pos
  by_cases hlast : e = Span.tooManyExponent ∧ 125 * 2 ^ 46 - 3 ≤ m
  · obtain ⟨rfl, hnear⟩ := hlast
    have hbelow : m < 125 * 2 ^ 46 := by
      rcases Span.mantissa_lt_of_units hlead hlt with hless | ⟨-, hless⟩
      · exact absurd hless (Nat.lt_irrefl _)
      · exact hless
    exact units_magnitude?_last h.spelling (by simp; omega) hz
  · have hroom : (4 * m + 2) * 2 ^ e ≤ (500 * 2 ^ 46 - 14) * 2 ^ Span.tooManyExponent := by
      rcases Span.mantissa_lt_of_units hlead hlt with hless | ⟨rfl, hless⟩
      · calc (4 * m + 2) * 2 ^ e ≤ 2 ^ 55 * 2 ^ e := Nat.mul_le_mul_right _ (by omega)
          _ = 2 ^ 54 * 2 ^ (e + 1) := by ring
          _ ≤ _ := Nat.mul_le_mul (by decide) (Nat.pow_le_pow_right (by decide) hless)
      · exact Nat.mul_le_mul_right _ (by omega)
    obtain ⟨m', k, hm', hmagnitude, hbound⟩ := exists_magnitude?_of_written h
    rw [hmagnitude, scale?] at hz
    split at hz
    · obtain rfl := Option.some.inj hz
      have hle := units_scaleDown_le (Binary64.units_ofNat_le hm') (-k).toNat
      rw [Span.tooMany]
      omega
    · have hscaled := hbound k.toNat (by omega)
      have hle := units_scaleUp?_mul_le hz
      have hroundings : (500 * 2 ^ 46 - 14) * (2 ^ 53 + 1) ^ 3 < 500 * 2 ^ 46 * 2 ^ 159 := by decide
      have hplace : 0 < 2 ^ Span.tooManyExponent := Nat.two_pow_pos _
      rw [Span.tooMany_eq]
      generalize 2 ^ Span.tooManyExponent = b at hroom hplace ⊢
      refine Nat.lt_of_mul_lt_mul_right (a := 4 * 2 ^ 159) ?_
      calc z.units * (4 * 2 ^ 159) = 4 * (z.units * 2 ^ 159) := by ring
        _ ≤ 4 * (m' * 10 ^ k.toNat * (2 ^ 53 + 1) ^ 3 * one) := Nat.mul_le_mul_left _ hle
        _ = m' * 10 ^ k.toNat * (4 * one) * (2 ^ 53 + 1) ^ 3 := by ring
        _ ≤ (500 * 2 ^ 46 - 14) * b * (2 ^ 53 + 1) ^ 3 :=
            Nat.mul_le_mul_right _ (Nat.le_trans hscaled hroom)
        _ = (500 * 2 ^ 46 - 14) * (2 ^ 53 + 1) ^ 3 * b := Nat.mul_right_comm ..
        _ < 500 * 2 ^ 46 * 2 ^ 159 * b := Nat.mul_lt_mul_of_pos_right hroundings hplace
        _ = 125 * 2 ^ 46 * b * (4 * 2 ^ 159) := by ring

theorem exists_reread_of_lt {x : Binary64} (hx : x.Proper) (hsign : x.isNegative = false)
    (hlt : x.units < Span.tooMany) :
    ∃ z : Binary64, (Number.float x).reread = .float z ∧ z.Proper ∧ z.units < Span.tooMany := by
  cases x with
  | nan => exact hx.elim
  | infinite s => exact hx.elim
  | finite s m e =>
      obtain rfl : s = false := hsign
      obtain ⟨hm, he, hlead⟩ := hx
      obtain ⟨y, c, n, z, hwritten, hz, hreread⟩ := Number.exists_reread hm he
      exact ⟨z, hreread, Numeral.proper_of_magnitude? hz,
        units_magnitude?_lt hm hlead hwritten hlt hz⟩

theorem ofMillis?_reread {t : Span} (h : t / Span.perSecond < 2 ^ 64) :
    (Number.float t.toMillis).Regular ∧
      (Span.ofMillis? (Number.float t.toMillis).reread.toBinary64 = none ↔
        2 ^ 64 - 1024 ≤ t / Span.perSecond) := by
  by_cases hlong : 2 ^ 64 - 1024 ≤ t / Span.perSecond
  · have hsame : (Number.float (.finite false (125 * 2 ^ 46) 1095)).reread =
        .float (.finite false (125 * 2 ^ 46) 1095) := by decide +kernel
    have hnone : Span.ofMillis? (.finite false (125 * 2 ^ 46) 1095) = none := by decide +kernel
    rw [Span.toMillis_of_le hlong h, hsame]
    exact ⟨⟨by decide, by decide, .inr (by decide)⟩, iff_of_true hnone hlong⟩
  · obtain ⟨hproper, hsign, hlt⟩ := Span.toMillis_of_lt (Nat.lt_of_not_le hlong)
    obtain ⟨z, hz, hproper', hlt'⟩ := exists_reread_of_lt hproper hsign hlt
    refine ⟨hproper, iff_of_false ?_ hlong⟩
    rw [hz, Number.toBinary64, Span.ofMillis?_eq_none_iff hproper']
    exact fun hmany => Nat.not_le.mpr hlt' hmany.2

end InbandTrace.Json
