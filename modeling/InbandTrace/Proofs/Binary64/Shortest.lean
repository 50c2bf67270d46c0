import InbandTrace.Proofs.Binary64.Nearest

namespace InbandTrace.Binary64

open Text

def gridUnit : Nat := Nat.pow 10 324

theorem exists_gridUnit : ∃ k, k = 324 ∧ gridUnit = 10 ^ k := ⟨324, rfl, by decide +kernel⟩

theorem gridUnit_pos : 0 < gridUnit := by
  obtain ⟨k, -, hk⟩ := exists_gridUnit
  rw [hk]
  exact Nat.pow_pos (by decide)

theorem two_mul_one_lt_gridUnit : 2 * one < gridUnit := by decide +kernel

theorem onGridScale_eq (x : Nat) : onGridScale x = x * gridUnit := by
  unfold onGridScale gridUnit
  exact Eq.refl _

attribute [local irreducible] gridUnit one

section

variable {i : Interval} {n x : Nat}

theorem contains_of_nearest? {c : Nat} (h : i.nearest? n = some c) :
    i.contains (c * gridStep n) = true := by
  unfold Interval.nearest? at h
  dsimp only at h
  split at h
  · cases h
    assumption
  · split at h
    · cases h
      assumption
    · split at h
      · cases h
        assumption
      · cases h

theorem contains_of_lt (hlow : onGridScale i.low < x) (hhigh : x < onGridScale i.high) :
    i.contains x = true := by
  unfold Interval.contains
  split
  · exact decide_eq_true ⟨Nat.le_of_lt hlow, Nat.le_of_lt hhigh⟩
  · exact decide_eq_true ⟨hlow, hhigh⟩

theorem bounds_of_contains (h : i.contains x = true) :
    onGridScale i.low ≤ x ∧ x ≤ onGridScale i.high ∧
      (i.closed = false → onGridScale i.low < x ∧ x < onGridScale i.high) := by
  unfold Interval.contains at h
  split at h
  · rename_i hclosed
    obtain ⟨hlow, hhigh⟩ := of_decide_eq_true h
    exact ⟨hlow, hhigh, fun hopen => by simp [hopen] at hclosed⟩
  · obtain ⟨hlow, hhigh⟩ := of_decide_eq_true h
    exact ⟨Nat.le_of_lt hlow, Nat.le_of_lt hhigh, fun _ => ⟨hlow, hhigh⟩⟩

end

section

variable {m e : Nat}

theorem low_add_le (hm : m ≠ 0) (e : Nat) :
    (interval m e).low + 2 ^ e ≤ (interval m e).middle := by
  change (4 * m - if m = hidden ∧ 0 < e then 1 else 2) * 2 ^ e + 2 ^ e ≤ 4 * m * 2 ^ e
  rw [← Nat.succ_mul]
  refine Nat.mul_le_mul_right _ ?_
  split <;> omega

theorem middle_le_low_add (m e : Nat) :
    (interval m e).middle ≤ (interval m e).low + 2 * 2 ^ e := by
  change 4 * m * 2 ^ e ≤ (4 * m - if m = hidden ∧ 0 < e then 1 else 2) * 2 ^ e + 2 * 2 ^ e
  rw [← Nat.add_mul]
  refine Nat.mul_le_mul_right _ ?_
  split <;> omega

theorem middle_add_eq (m e : Nat) : (interval m e).middle + 2 * 2 ^ e = (interval m e).high :=
  (Nat.add_mul ..).symm

theorem isSome_nearest?_zero (hm : m ≠ 0) (e : Nat) : ((interval m e).nearest? 0).isSome := by
  have hstep : gridStep 0 = 4 * one := Nat.one_mul _
  have hfine : 4 * one < 2 * (2 ^ e * gridUnit) := by
    have hle : 1 * gridUnit ≤ 2 ^ e * gridUnit := Nat.mul_le_mul_right _ (Nat.two_pow_pos e)
    have := two_mul_one_lt_gridUnit
    omega
  have hlow : (interval m e).low * gridUnit + 2 ^ e * gridUnit ≤
      (interval m e).middle * gridUnit := by
    rw [← Nat.add_mul]
    exact Nat.mul_le_mul_right _ (low_add_le hm e)
  have hhigh : (interval m e).middle * gridUnit + 2 * (2 ^ e * gridUnit) =
      (interval m e).high * gridUnit := by
    rw [← Nat.mul_assoc, ← Nat.add_mul, middle_add_eq]
  have hbelow := two_mul_roundHalfEven_le ((interval m e).middle * gridUnit) (4 * one)
  have habove := le_two_mul_roundHalfEven ((interval m e).middle * gridUnit)
    (Nat.mul_pos (by decide) one_pos : 0 < 4 * one)
  unfold Interval.nearest?
  dsimp only
  rw [if_pos]
  · rfl
  · rw [hstep, onGridScale_eq, Nat.mul_comm _ (4 * one)]
    exact contains_of_lt (by rw [onGridScale_eq]; omega) (by rw [onGridScale_eq]; omega)

theorem contains_coarsest (hm : m ≠ 0) (e n : Nat) :
    ((interval m e).coarsest n).1 ≤ n ∧
      (interval m e).contains
        (((interval m e).coarsest n).2 * gridStep ((interval m e).coarsest n).1) = true := by
  induction n with
  | zero =>
      rw [Interval.coarsest]
      obtain ⟨c, hpoint⟩ := Option.isSome_iff_exists.mp (isSome_nearest?_zero hm e)
      rw [hpoint]
      exact ⟨Nat.le_refl 0, contains_of_nearest? hpoint⟩
  | succ n ih =>
      rw [Interval.coarsest]
      cases hpoint : (interval m e).nearest? (n + 1) with
      | none => exact ⟨Nat.le_succ_of_le ih.1, ih.2⟩
      | some c => exact ⟨Nat.le_refl _, contains_of_nearest? hpoint⟩

theorem ne_zero_of_contains {x : Nat} (hm : m ≠ 0) (h : (interval m e).contains x = true) :
    x ≠ 0 := by
  have hlow : 0 < onGridScale (interval m e).low := by
    rw [onGridScale_eq]
    refine Nat.mul_pos (Nat.mul_pos ?_ (Nat.two_pow_pos e)) gridUnit_pos
    split <;> omega
  exact Nat.ne_of_gt (Nat.lt_of_lt_of_le hlow (bounds_of_contains h).1)

theorem contains_zero (e : Nat) : (interval 0 e).contains 0 = true := by
  have hlow : (interval 0 e).low = 0 := by simp [interval]
  have hclosed : (interval 0 e).closed = true := rfl
  rw [Interval.contains, if_pos hclosed, hlow, onGridScale_eq, Nat.zero_mul]
  exact decide_eq_true ⟨Nat.le_refl 0, Nat.zero_le _⟩

theorem near_of_contains {c n w k : Nat} (h : (interval m e).contains (c * gridStep n) = true)
    (hpoint : c * 10 ^ n * 10 ^ k = w * gridUnit) : Near m e (w * one) (10 ^ k) := by
  have hscaled : c * gridStep n * 10 ^ k = 4 * (w * one) * gridUnit := by
    change c * (10 ^ n * (4 * one)) * 10 ^ k = _
    calc c * (10 ^ n * (4 * one)) * 10 ^ k = c * 10 ^ n * 10 ^ k * (4 * one) := by ring
      _ = 4 * (w * one) * gridUnit := by
        rw [hpoint]
        ring
  have hpos : 0 < 10 ^ k := Nat.pow_pos (by decide)
  have hswap : ∀ y, 10 ^ k * y * gridUnit = onGridScale y * 10 ^ k := by
    intro y
    rw [onGridScale_eq]
    ring
  obtain ⟨hlow, hhigh, hopen⟩ := bounds_of_contains h
  refine ⟨?_, ?_, fun hodd => ?_⟩
  · refine Nat.le_of_mul_le_mul_right (c := gridUnit) ?_ gridUnit_pos
    rw [hswap, ← hscaled]
    exact Nat.mul_le_mul_right _ hlow
  · refine Nat.le_of_mul_le_mul_right (c := gridUnit) ?_ gridUnit_pos
    rw [hswap, ← hscaled]
    exact Nat.mul_le_mul_right _ hhigh
  · have hclosed : (interval m e).closed = false := by
      simp [interval, hodd]
    obtain ⟨hlow, hhigh⟩ := hopen hclosed
    constructor
    · refine Nat.lt_of_mul_lt_mul_right (a := gridUnit) ?_
      rw [hswap, ← hscaled]
      exact Nat.mul_lt_mul_of_pos_right hlow hpos
    · refine Nat.lt_of_mul_lt_mul_right (a := gridUnit) ?_
      rw [hswap, ← hscaled]
      exact Nat.mul_lt_mul_of_pos_right hhigh hpos

end

end InbandTrace.Binary64
