import InbandTrace.Proofs.Binary64.Closeness
import InbandTrace.Proofs.Time.Millis

namespace InbandTrace.Span

open Binary64 (close_add close_div close_mul close_ofNat_of_lt moderate_div)

attribute [local irreducible] Binary64.one Binary64.ofUnits

/-- The longest time that a hop can be waited for. -/
def minute : Nat := 60 * perSecond

theorem cast_perSecond_pos : (0 : ℚ) < perSecond := by
  norm_num [perSecond]

section

variable {t : ℕ}

theorem seconds_pos (hpos : 0 < t) : (0 : ℚ) < t / perSecond :=
  div_pos (by exact_mod_cast hpos) cast_perSecond_pos

theorem millis_pos (hpos : 0 < t) : (0 : ℚ) < t / perSecond * 1000 :=
  mul_pos (seconds_pos hpos) (by norm_num)

theorem lt_of_le_minute (h : t ≤ minute) : t < 2 ^ 36 := Nat.lt_of_le_of_lt h (by decide)

theorem close_toSeconds (h : t ≤ minute) : Close 2 (toSeconds t).value (t / perSecond) := by
  have hlt := lt_of_le_minute h
  have hover : t % perSecond < perSecond := Nat.mod_lt t (by decide)
  have hsecond : perSecond < 2 ^ 53 := by decide
  have hle : t / perSecond ≤ t := Nat.div_le_self ..
  have hwhole := (close_ofNat_of_lt (n := t / perSecond) (by omega)).mono (Nat.zero_le 1)
  have hnanos := close_div (close_ofNat_of_lt (n := t % perSecond) (by omega))
    (close_ofNat_of_lt hsecond) cast_perSecond_pos (by decide)
    (moderate_div (by decide) (by omega) (by decide))
  have hsum : ((t / perSecond : ℕ) : ℚ) + ((t % perSecond : ℕ) / perSecond : ℚ) =
      t / perSecond := by
    have hsplit : (perSecond * (t / perSecond : ℕ) + (t % perSecond : ℕ) : ℚ) = t := by
      exact_mod_cast Nat.div_add_mod t perSecond
    rw [eq_div_iff cast_perSecond_pos.ne', add_mul, div_mul_cancel₀ _ cast_perSecond_pos.ne',
      mul_comm]
    exact hsplit
  have hclose := close_add hwhole hnanos (by decide)
    (hsum ▸ moderate_div (by decide) (by omega) (by decide))
  rwa [hsum] at hclose

theorem moderate_millis {k : ℕ} (h : t ≤ minute) (hk : 46 ≤ k) :
    Binary64.Moderate k (t / perSecond * 1000) := by
  have hlt := lt_of_le_minute h
  have hmillis : (t / perSecond * 1000 : ℚ) = (t * 1000 : ℕ) / perSecond := by
    rw [Nat.cast_mul, Nat.cast_ofNat]
    ring
  rw [hmillis]
  exact (moderate_div (k := 46) (by decide) (by omega) (by decide)).mono hk

theorem close_toMillis (h : t ≤ minute) : Close 3 (toMillis t).value (t / perSecond * 1000) := by
  refine close_mul (close_toSeconds h) (close_ofNat_of_lt (by decide)) (by decide) ?_
  rw [Nat.cast_ofNat]
  exact moderate_millis h (by decide)

theorem nanos_of_close {u : ℕ} (h : t ≤ minute)
    (hclose : Close 9 (u / Binary64.one : ℚ) (t / perSecond)) :
    roundHalfEven (u * perSecond) Binary64.one = t := by
  have hone := Binary64.cast_one_pos
  have hscaled := hclose.mul (.refl (mul_pos hone cast_perSecond_pos).le)
  have hleft : (u / Binary64.one * (Binary64.one * perSecond) : ℚ) = (u * perSecond : ℕ) := by
    rw [← mul_assoc, div_mul_cancel₀ _ hone.ne', Nat.cast_mul]
  have hright : (t / perSecond * (Binary64.one * perSecond) : ℚ) = Binary64.one * t := by
    rw [mul_left_comm, div_mul_cancel₀ _ cast_perSecond_pos.ne']
  rw [hleft, hright] at hscaled
  exact roundHalfEven_of_close Binary64.one_pos (lt_of_le_minute h) hscaled

theorem ofSeconds?_of_close {x : Binary64} (hsign : x.isNegative = false) (hpos : 0 < t)
    (h : t ≤ minute) (hclose : Close 9 x.value (t / perSecond)) : ofSeconds? x = some t := by
  have hvalue := hclose.pos (seconds_pos hpos)
  cases x with
  | nan => simp [Binary64.value, Binary64.units] at hvalue
  | infinite s => simp [Binary64.value, Binary64.units] at hvalue
  | finite s m e =>
      obtain rfl : s = false := hsign
      have hround : roundHalfEven (m * 2 ^ e * perSecond) Binary64.one = t :=
        nanos_of_close h hclose
      have hshort : m * 2 ^ e < 2 ^ 64 * Binary64.one := by
        have hle := le_two_mul_roundHalfEven (m * 2 ^ e * perSecond) Binary64.one_pos
        have hnanos : m * 2 ^ e ≤ m * 2 ^ e * perSecond := Nat.le_mul_of_pos_right _ (by decide)
        have hroom : Binary64.one * t ≤ Binary64.one * 2 ^ 36 :=
          Nat.mul_le_mul_left _ (lt_of_le_minute h).le
        have hone := Binary64.one_pos
        rw [hround] at hle
        exact Nat.lt_of_le_of_lt hnanos (by omega)
      rw [ofSeconds?_of_lt hshort, hround]

theorem ofMillis?_of_close {ms : Binary64} (hms : ms.Proper) (hsign : ms.isNegative = false)
    (hpos : 0 < t) (h : t ≤ minute) (hclose : Close 8 ms.value (t / perSecond * 1000)) :
    ofMillis? ms = some t := by
  have hlt := lt_of_le_minute h
  have hsame : (t / perSecond * 1000 / 1000 : ℚ) = t / perSecond := by
    rw [mul_div_cancel_right₀ _ (by norm_num)]
  have hunits := Binary64.units_pos_of_value (hclose.pos (millis_pos hpos))
  rw [ofMillis?, if_pos ((isPositive_iff hms).mpr ⟨hsign, hunits.ne'⟩)]
  refine ofSeconds?_of_close (isNegative_div_thousand hsign) hpos h ?_
  have hdiv := close_div hclose (close_ofNat_of_lt (n := 1000) (by decide)) (by norm_num)
    (by decide) (by
      rw [Nat.cast_ofNat, hsame]
      exact moderate_div (by decide) (by omega) (by decide))
  rwa [Nat.cast_ofNat, hsame] at hdiv

end

end InbandTrace.Span
