import InbandTrace.Proofs.Binary64.Closeness
import InbandTrace.Proofs.Json.Reread

namespace InbandTrace

attribute [local irreducible] Binary64.one Binary64.gridUnit

namespace Text

theorem le_nine_of_mem_spanDigits {s : List Char} {d : Nat}
    (h : d ∈ (spanDigits decimalDigit? s).1) : d ≤ 9 := by
  induction s with
  | nil => cases h
  | cons c s ih =>
      rw [spanDigits] at h
      split at h
      · rename_i first hfirst
        rcases List.mem_cons.mp h with rfl | hmem
        · unfold decimalDigit? at hfirst
          split at hfirst
          · obtain rfl := Option.some.inj hfirst
            exact digit_le_nine ‹_›
          · cases hfirst
        · exact ih hmem
      · cases h

end Text

namespace Json

open Text

section

variable {s rest : List Char} {ds : List Nat}

theorem le_nine_of_wholePart (h : wholePart s = some (ds, rest)) : ∀ d ∈ ds, d ≤ 9 := by
  intro d hd
  refine le_nine_of_mem_spanDigits (s := s) ?_
  unfold wholePart at h
  split at h
  · cases h
  · cases h
  · rwa [Option.some.inj h]

theorem le_nine_of_fractionPart (h : fractionPart s = some (ds, rest)) : ∀ d ∈ ds, d ≤ 9 := by
  intro d hd
  unfold fractionPart at h
  split at h
  · rename_i tail
    split at h
    · cases h
    · refine le_nine_of_mem_spanDigits (s := tail) ?_
      rwa [Option.some.inj h]
  · obtain ⟨rfl, -⟩ := Prod.mk.inj (Option.some.inj h)
    cases hd

theorem Spelling.le_nine {x : Numeral} (h : Spelling s x) : ∀ d ∈ x.whole ++ x.fraction, d ≤ 9 := by
  obtain ⟨⟨whole, tail⟩, hwhole, hread⟩ := Option.bind_eq_some_iff.mp (h.read false [] stops_nil)
  obtain ⟨⟨fraction, tail'⟩, hfraction, hread⟩ := Option.bind_eq_some_iff.mp hread
  obtain ⟨⟨minus, exponent, tail''⟩, -, hread⟩ := Option.bind_eq_some_iff.mp hread
  obtain ⟨hx, -⟩ := Prod.mk.inj (Option.some.inj hread)
  obtain ⟨-, rfl, rfl, -, -⟩ := Numeral.mk.inj hx
  exact List.forall_mem_append.mpr ⟨le_nine_of_wholePart hwhole, le_nine_of_fractionPart hfraction⟩

theorem lt_absorb_mul (h : ∀ d ∈ ds, d ≤ 9) (n : Nat) :
    n * 10 ^ ds.length + ofDigits 10 ds <
      ((absorb n ds).1 + 1) * 10 ^ (absorb n ds).2.length := by
  induction ds generalizing n with
  | nil => simp [absorb, ofDigits]
  | cons d ds ih =>
      have hrest := ih fun e he => h e (List.mem_cons_of_mem _ he)
      rw [absorb]
      split
      · have hvalue : n * 10 ^ (d :: ds).length + ofDigits 10 (d :: ds) =
            (n * 10 + d) * 10 ^ ds.length + ofDigits 10 ds := by
          rw [ofDigits_cons, List.length_cons, Nat.pow_succ]
          ring
        rw [hvalue]
        exact hrest _
      · rw [Nat.succ_mul]
        exact Nat.add_lt_add_left (ofDigits_lt h) _

theorem absorb_full (h : ∀ d ∈ ds, d ≤ 9) (n : Nat) :
    (absorb n ds).2 = [] ∨ 2 ^ 64 ≤ (absorb n ds).1 * 10 + 9 := by
  induction ds generalizing n with
  | nil => exact .inl rfl
  | cons d ds ih =>
      rw [absorb]
      split
      · exact ih (fun e he => h e (List.mem_cons_of_mem _ he)) _
      · rename_i hfull
        have hlarge : 2 ^ 64 ≤ n * 10 + d := Nat.le_of_not_lt hfull
        have hdigit := h d List.mem_cons_self
        exact .inr (Nat.le_trans hlarge (Nat.add_le_add_left hdigit _))

theorem close_absorb (h : ∀ d ∈ ds, d ≤ 9) (n : Nat) :
    Close 1 (((absorb n ds).1 * 10 ^ (absorb n ds).2.length : ℕ) : ℚ)
      ((n * 10 ^ ds.length + ofDigits 10 ds : ℕ) : ℚ) := by
  have hle := absorb_mul_le n ds
  have hlt := lt_absorb_mul h n
  have hfull := absorb_full h n
  generalize n * 10 ^ ds.length + ofDigits 10 ds = v at hle hlt ⊢
  generalize (absorb n ds).1 = m at hle hlt hfull ⊢
  generalize (absorb n ds).2 = left at hle hlt hfull ⊢
  rw [Nat.succ_mul] at hlt
  rcases hfull with rfl | hlarge
  · rw [List.length_nil, Nat.pow_zero] at hle hlt ⊢
    exact .of_half (by omega) (by omega)
  · have hplace : 2 ^ 53 * 10 ^ left.length ≤ m * 10 ^ left.length :=
      Nat.mul_le_mul_right _ (by omega)
    generalize m * 10 ^ left.length = a at hle hlt hplace ⊢
    exact .of_half (by omega) (by omega)

end

theorem Numeral.Denotes.close_magnitude? {x : Numeral} {c n : Nat} (h : x.Denotes c (n - 324))
    (hdigits : ∀ d ∈ x.whole ++ x.fraction, d ≤ 9) :
    ∃ (m : Nat) (k : Int), m < 2 ^ 64 ∧ x.magnitude? = scale? (.ofNat m) k ∧
      Close 1 (m * 10 ^ k : ℚ) (c * 10 ^ n / Binary64.gridUnit) := by
  obtain ⟨z, hvalue, hpower⟩ := h.value
  obtain ⟨g, hg, hunit⟩ := Binary64.exists_gridUnit
  have hlength := length_absorb_le (ofDigits 10 x.whole) x.fraction
  have hclose := close_absorb (List.forall_mem_append.mp hdigits).2 (ofDigits 10 x.whole)
  rw [← ofDigits_append, hvalue, Nat.cast_mul, Nat.cast_pow, Nat.cast_ofNat] at hclose
  refine ⟨_, _, absorb_lt h.whole x.fraction, h.magnitude?_eq, ?_⟩
  generalize (absorb (ofDigits 10 x.whole) x.fraction).1 = m at hclose ⊢
  generalize (absorb (ofDigits 10 x.whole) x.fraction).2.length = left at hlength hclose ⊢
  have hten : (10 : ℚ) ≠ 0 := by norm_num
  have hexponent : x.power - (x.fraction.length - left : ℕ) = left + (n - g - z : ℤ) := by omega
  have hread : (m * 10 ^ left : ℚ) * 10 ^ (n - g - z : ℤ) =
      m * 10 ^ (x.power - (x.fraction.length - left : ℕ)) := by
    rw [hexponent, zpow_add₀ hten, zpow_natCast, mul_assoc]
  have hdenoted : ((c * 10 ^ z : ℕ) : ℚ) * 10 ^ (n - g - z : ℤ) =
      c * 10 ^ n / Binary64.gridUnit := by
    rw [zpow_sub₀ hten, zpow_sub₀ hten, zpow_natCast, zpow_natCast, zpow_natCast, hunit]
    push_cast
    field_simp
  rw [← hread, ← hdenoted]
  exact hclose.mul (.refl (by positivity))

end Json

namespace Binary64

theorem Written.close {m e c n : Nat} {y : Json.Numeral} (h : Written m e y c n) (hm : 2 ^ 52 ≤ m)
    (negative : Bool) : Close 1 (c * 10 ^ n / gridUnit) (finite negative m e).value := by
  have hone := cast_one_pos
  have hgrid : (0 : ℚ) < gridUnit := by exact_mod_cast gridUnit_pos
  obtain ⟨hlow, hhigh, -⟩ := bounds_of_contains h.contains
  rw [onGridScale_eq] at hlow hhigh
  have hpoint : c * gridStep n = 4 * (c * 10 ^ n * one) := by
    change c * (10 ^ n * (4 * one)) = _
    ring
  have hend : (interval m e).high * gridUnit =
      4 * (m * 2 ^ e * gridUnit) + 2 * (2 ^ e * gridUnit) := by
    change (4 * m + 2) * 2 ^ e * gridUnit = _
    ring
  have hmiddle : 4 * (m * 2 ^ e * gridUnit) ≤
      (interval m e).low * gridUnit + 2 * (2 ^ e * gridUnit) := by
    have hle := Nat.mul_le_mul_right gridUnit (middle_le_low_add m e)
    change 4 * m * 2 ^ e * gridUnit ≤ _ at hle
    linarith
  have hplace : 2 ^ 52 * (2 ^ e * gridUnit) ≤ m * 2 ^ e * gridUnit := by
    rw [Nat.mul_assoc m]
    exact Nat.mul_le_mul_right _ hm
  have hscaled : Close 1 ((c * 10 ^ n * one : ℕ) : ℚ) (m * 2 ^ e * gridUnit : ℕ) := by
    rw [hpoint] at hlow hhigh
    rw [hend] at hhigh
    exact .of_half (by omega) (by omega)
  have hclose := hscaled.div (.refl (mul_pos hgrid hone).le) (mul_pos hgrid hone)
  rwa [Nat.cast_mul, mul_div_mul_right _ _ hone.ne', Nat.cast_mul _ gridUnit,
    mul_comm (gridUnit : ℚ), mul_div_mul_right _ _ hgrid.ne', Nat.cast_mul c,
    Nat.cast_pow] at hclose

end Binary64

namespace Json

open Binary64 (Moderate moderate_natCast)

section

variable {m k : Nat} {v : ℚ}

theorem close_powerOfTen (h : (10 ^ k : ℚ) ≤ 2 ^ 199) :
    Close 1 (Binary64.powerOfTen k).value (10 ^ k) := by
  have hle : 10 ^ k ≤ 2 ^ 199 := by exact_mod_cast h
  have hclose := Binary64.close_ofNat (moderate_natCast hle)
  rwa [Nat.cast_pow] at hclose

theorem close_scaleDown (hpos : 0 < m) (hm : m < 2 ^ 64) (h : Moderate 100 (m / 10 ^ k)) :
    Close 3 (scaleDown (.ofNat m) k).value (m / 10 ^ k) ∧
      (scaleDown (.ofNat m) k).isNegative = false := by
  have hten : (0 : ℚ) < 10 ^ k := by positivity
  have hlt : (m : ℚ) < 2 ^ 64 := by exact_mod_cast hm
  have hpos' : (0 : ℚ) < m := by exact_mod_cast hpos
  have hpower : (10 ^ k : ℚ) ≤ 2 ^ 164 := by
    obtain ⟨hlow, -⟩ := h.resolve_left (div_pos hpos' hten).ne'
    rw [div_le_div_iff₀ (by positivity) hten, one_mul] at hlow
    calc (10 ^ k : ℚ) ≤ m * 2 ^ 100 := hlow
      _ ≤ 2 ^ 64 * 2 ^ 100 := by gcongr
      _ = 2 ^ 164 := by norm_num
  -- So there is one division, not two.
  have hk : k ≤ 308 := by
    by_contra hlarge
    have hhundred : (10 ^ 100 : ℚ) ≤ 10 ^ k := pow_le_pow_right₀ (by norm_num) (by omega)
    exact absurd (hhundred.trans hpower) (by norm_num)
  have hnumber := Binary64.close_ofNat (moderate_natCast (k := 199) (n := m) (by omega))
  rw [scaleDown, if_pos hk]
  constructor
  · exact Binary64.close_div hnumber (close_powerOfTen (hpower.trans (by norm_num))) hten
      (by decide) (h.mono (by decide))
  · rw [Binary64.div_eq, Binary64.isNegative_ofNat, Binary64.powerOfTen, Binary64.isNegative_ofNat]
    exact Binary64.isNegative_normalize ..

theorem close_scaleUp? {z : Binary64} (hpos : 0 < m) (hm : m < 2 ^ 64)
    (h : Moderate 100 (m * 10 ^ k)) (hz : scaleUp? (.ofNat m) k = some z) :
    Close 3 z.value (m * 10 ^ k) ∧ z.isNegative = false := by
  have hone : (1 : ℚ) ≤ m := by exact_mod_cast hpos
  have hten : (0 : ℚ) < 10 ^ k := by positivity
  have hpos' : (0 : ℚ) < m := zero_lt_one.trans_le hone
  have hpower : (10 ^ k : ℚ) ≤ 2 ^ 100 := by
    obtain ⟨-, hhigh⟩ := h.resolve_left (mul_pos hpos' hten).ne'
    exact (le_mul_of_one_le_left hten.le hone).trans hhigh
  have hnumber := Binary64.close_ofNat (moderate_natCast (k := 199) (n := m) (by omega))
  unfold scaleUp? at hz
  split at hz
  · rename_i hzero
    exact absurd hzero (Binary64.units_pos_of_value (hnumber.pos hpos')).ne'
  · split at hz
    · cases hz
    · dsimp only at hz
      split at hz
      · obtain rfl := Option.some.inj hz
        constructor
        · exact Binary64.close_mul hnumber (close_powerOfTen (hpower.trans (by norm_num)))
            (by decide) (h.mono (by decide))
        · rw [Binary64.mul_eq, Binary64.isNegative_ofNat, Binary64.powerOfTen,
            Binary64.isNegative_ofNat]
          exact Binary64.isNegative_normalize ..
      · cases hz

end

theorem close_scale? {m j : Nat} {k : Int} {v : ℚ} {z : Binary64} (hm : m < 2 ^ 64) (hv : 0 < v)
    (hmoderate : Moderate 99 v) (h : Close j (m * 10 ^ k : ℚ) v) (hj : j ≤ 16)
    (hz : scale? (.ofNat m) k = some z) : Close (3 + j) z.value v ∧ z.isNegative = false := by
  have hpos : 0 < m := by
    refine Nat.pos_of_ne_zero ?_
    rintro rfl
    simpa using h.pos hv
  have hmoderate' := hmoderate.of_close h hj
  unfold scale? at hz
  split at hz
  · rename_i hneg
    obtain rfl := Option.some.inj hz
    obtain ⟨i, rfl⟩ : ∃ i : ℕ, k = -i := ⟨(-k).toNat, by omega⟩
    rw [zpow_neg, zpow_natCast, ← div_eq_mul_inv] at h hmoderate'
    rw [Int.neg_neg, Int.toNat_natCast]
    obtain ⟨hclose, hsign⟩ := close_scaleDown hpos hm hmoderate'
    exact ⟨hclose.trans h, hsign⟩
  · obtain ⟨i, rfl⟩ : ∃ i : ℕ, k = i := ⟨k.toNat, by omega⟩
    rw [zpow_natCast] at h hmoderate'
    rw [Int.toNat_natCast] at hz
    obtain ⟨hclose, hsign⟩ := close_scaleUp? hpos hm hmoderate' hz
    exact ⟨hclose.trans h, hsign⟩

theorem hidden_le_of_moderate {m e : Nat} {s : Bool} (hm : m < 2 ^ 53)
    (hlead : Binary64.Leads m e) (hpos : 0 < (Binary64.finite s m e).value)
    (h : Moderate 99 (Binary64.finite s m e).value) : 2 ^ 52 ≤ m := by
  refine hlead.resolve_left ?_
  rintro rfl
  obtain ⟨hlow, -⟩ := h.resolve_left hpos.ne'
  have hone : 2 ^ 252 ≤ Binary64.one := Binary64.two_pow_le_one (by decide)
  rw [Binary64.value, div_le_div_iff₀ (by positivity) Binary64.cast_one_pos, one_mul] at hlow
  have hunits : Binary64.one ≤ m * 2 ^ 0 * 2 ^ 99 := by exact_mod_cast hlow
  omega

theorem close_reread {x : Binary64} (hx : x.Proper) (hsign : x.isNegative = false)
    (hpos : 0 < x.value) (hmoderate : Moderate 99 x.value) :
    ∃ z : Binary64, (Number.float x).reread = .float z ∧ z.Proper ∧ z.isNegative = false ∧
      Close 5 z.value x.value := by
  cases x with
  | nan => exact hx.elim
  | infinite s => exact hx.elim
  | finite s m e =>
      obtain rfl : s = false := hsign
      obtain ⟨hm, he, hlead⟩ := hx
      obtain ⟨y, c, n, z, hwritten, hz, hreread⟩ := Number.exists_reread hm he
      obtain ⟨m', k, hm', hmagnitude, htaken⟩ :=
        hwritten.denotes.close_magnitude? hwritten.spelling.le_nine
      -- One rounding lies in what is spelled, one in the digits left out and three in the scaling.
      have hspelled := hwritten.close (hidden_le_of_moderate hm hlead hpos hmoderate) false
      obtain ⟨hclose, hsign'⟩ := close_scale? hm' hpos hmoderate (htaken.trans hspelled) (by decide)
        (hmagnitude ▸ hz)
      exact ⟨z, hreread, Numeral.proper_of_magnitude? hz, hsign', hclose⟩

end Json

end InbandTrace
