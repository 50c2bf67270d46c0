import InbandTrace.Proofs.Json.Reread

namespace InbandTrace

open Text

def Binary64.Short (x : Binary64) : Prop :=
  'e' ∉ x.jsonText ∧ x.jsonText.countP Char.isDigit ≤ 15

instance (x : Binary64) : Decidable x.Short :=
  inferInstanceAs (Decidable (_ ∧ _))

namespace Json

theorem Numeral.magnitude?_of_plain {x : Numeral} (hreal : x.isInteger = false)
    (hplain : x.exponent = []) (hlt : ofDigits 10 (x.whole ++ x.fraction) < 2 ^ 64) :
    x.magnitude? = some
      (scaleDown (.ofNat (ofDigits 10 (x.whole ++ x.fraction))) x.fraction.length) := by
  have hfraction : x.fraction ≠ [] := by
    intro hnone
    simp [isInteger, hplain, hnone] at hreal
  have hpos : 0 < x.fraction.length := List.length_pos_iff.mpr hfraction
  rw [ofDigits_append] at hlt ⊢
  have hwhole : ofDigits 10 x.whole < 2 ^ 64 :=
    Nat.lt_of_le_of_lt (Nat.le_mul_of_pos_right _ (Nat.pow_pos (by decide)))
      (Nat.lt_of_le_of_lt (Nat.le_add_right _ _) hlt)
  have hfirst : absorb 0 x.whole = (ofDigits 10 x.whole, []) := by
    rw [absorb_of_lt (by rwa [Nat.zero_mul, Nat.zero_add]), Nat.zero_mul, Nat.zero_add]
  unfold Numeral.magnitude?
  simp only [hfirst, absorb_of_lt hlt, hplain]
  rw [if_neg (by decide)]
  have hnone : ofDigits 10 [] = 0 := rfl
  simp only [hnone, List.length_nil, Nat.sub_zero, Int.natCast_zero, Int.zero_sub, Int.sub_zero,
    Int.add_zero, ite_self]
  rw [scale?, if_pos (by omega), Int.neg_neg, Int.toNat_natCast]

theorem magnitude?_of_short {m e c n : Nat} {x : Numeral} (h : Binary64.Written m e x c n)
    (hm : m < 2 ^ 53) (he : e ≤ 2045) (hlead : Binary64.Leads m e)
    (hplain : 'e' ∉ Binary64.magnitudeText m e)
    (hshort : (Binary64.magnitudeText m e).countP Char.isDigit ≤ 15) :
    x.magnitude? = some (.finite false m e) := by
  have hexponent : x.exponent = [] := h.spelling.exponent hplain
  have hlength : x.fraction.length ≤ 15 := Nat.le_trans h.spelling.fraction_le hshort
  have hlt : ofDigits 10 (x.whole ++ x.fraction) < 10 ^ 15 :=
    Nat.lt_of_lt_of_le h.spelling.value_lt (Nat.pow_le_pow_right (by decide) hshort)
  have hpow : 10 ^ x.fraction.length < 2 ^ 53 :=
    Nat.lt_of_le_of_lt (Nat.pow_le_pow_right (by decide) hlength) (by decide)
  obtain ⟨z, hvalue, hpower⟩ := h.denotes.value
  have hpoint : c * 10 ^ n * 10 ^ x.fraction.length =
      ofDigits 10 (x.whole ++ x.fraction) * Binary64.gridUnit := by
    obtain ⟨k, hk, hunit⟩ := Binary64.exists_gridUnit
    have hzero : x.power = 0 := by simp [Numeral.power, hexponent, ofDigits]
    rw [hvalue, hunit, Nat.mul_assoc, Nat.mul_assoc, ← Nat.pow_add, ← Nat.pow_add]
    congr 2
    omega
  rw [Numeral.magnitude?_of_plain h.denotes.isInteger hexponent (by omega), scaleDown,
    if_pos (by omega)]
  exact congrArg some (Binary64.div_ofNat_eq (Binary64.near_of_contains h.contains hpoint)
    (by omega) hpow (Nat.pow_pos (by decide)) hm he hlead)

namespace Number

theorem reread_of_short {x : Binary64} (h : x.Proper) (hshort : x.Short) :
    reread (.float x) = .float x := by
  cases x with
  | nan => exact h.elim
  | infinite s => exact h.elim
  | finite s m e =>
      obtain ⟨hm, he, hlead⟩ := h
      obtain ⟨y, c, n, hwritten⟩ := Binary64.exists_written hm he
      obtain ⟨hplain, hcount⟩ := hshort
      have hz : y.magnitude? = some (.finite false m e) := by
        cases s with
        | false => exact magnitude?_of_short hwritten hm he hlead hplain hcount
        | true =>
            exact magnitude?_of_short hwritten hm he hlead
              (fun hmem => hplain (List.mem_cons_of_mem _ hmem)) hcount
      obtain ⟨y', hspells, hnumber⟩ := numeral_of_written hwritten hz s
      rw [reread_of_spells hspells hnumber]
      cases s <;> rfl

end Number

end Json

end InbandTrace
