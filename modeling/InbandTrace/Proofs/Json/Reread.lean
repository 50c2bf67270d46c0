import InbandTrace.Proofs.Binary64.Shortest
import InbandTrace.Proofs.Json.Magnitude
import InbandTrace.Proofs.Json.Numerals

namespace InbandTrace

open Text

attribute [local irreducible] Binary64.one Binary64.topPlace

attribute [local irreducible] Binary64.gridUnit

namespace Binary64

variable {m e n : Nat}

/-- What is spelled out for a double lies in its rounding interval. -/
structure Written (m e : Nat) (x : Json.Numeral) (c n : Nat) : Prop where
  spelling : Json.Spelling (magnitudeText m e) x
  denotes : x.Denotes c (n - 324)
  contains : (interval m e).contains (c * gridStep n) = true

theorem Written.bounded {x : Json.Numeral} {c : Nat} (h : Written m e x c n) :
    c * gridStep n ≤ onGridScale (interval m e).high :=
  (bounds_of_contains h.contains).2.1

theorem length_decimal_le {c : Nat} (hm : m < 2 ^ 53) (he : e ≤ 2045)
    (h : c * gridStep n ≤ onGridScale (interval m e).high) : (decimal c).length ≤ 1000 := by
  refine (Nat.length_toDigits_le_iff (by decide) (by decide)).mpr ?_
  have hstep : 0 < gridStep n :=
    Nat.mul_pos (Nat.pow_pos (by decide)) (Nat.mul_pos (by decide) one_pos)
  have hpow : 2 ^ e ≤ 2 ^ 2045 := pow_le_pow_right₀ (by decide) he
  have hmantissa : 4 * m + 2 ≤ 2 ^ 55 := by omega
  have hhigh : (interval m e).high ≤ 2 ^ 55 * 2 ^ 2045 := Nat.mul_le_mul hmantissa hpow
  have hlast : 2 ^ 55 * 2 ^ 2045 * gridUnit < 10 ^ 1000 := by decide +kernel
  calc c ≤ c * gridStep n := Nat.le_mul_of_pos_right c hstep
    _ ≤ (interval m e).high * gridUnit := onGridScale_eq _ ▸ h
    _ ≤ 2 ^ 55 * 2 ^ 2045 * gridUnit := Nat.mul_le_mul_right _ hhigh
    _ < 10 ^ 1000 := hlast

theorem exists_written (hm : m < 2 ^ 53) (he : e ≤ 2045) : ∃ x c n, Written m e x c n := by
  by_cases hzero : m = 0
  · subst hzero
    obtain ⟨x, hx, hdenotes⟩ : ∃ x : Json.Numeral,
        Json.Spelling (magnitudeText 0 e) x ∧ x.Denotes 0 ((323 : Nat) - 324) :=
      Json.exists_point ['0'] (Json.leading_decimal 0) Json.isDigit_of_mem_zero nofun (by decide) 0
        rfl rfl
    exact ⟨x, 0, 323, hx, hdenotes, by rw [Nat.zero_mul, contains_zero]⟩
  · obtain ⟨hn, hpoint⟩ := contains_coarsest hzero e 633
    cases hbest : (interval m e).coarsest 633 with
    | mk n c =>
        rw [hbest] at hn hpoint
        have hc : c ≠ 0 := by
          rintro rfl
          exact ne_zero_of_contains hzero hpoint (Nat.zero_mul _)
        have hlength : (decimal c).length ≤ 1000 :=
          length_decimal_le hm he (bounds_of_contains hpoint).2.1
        have hpositive : 0 < (decimal c).length := List.length_pos_iff.mpr (decimal_ne_nil c)
        have htext : magnitudeText m e =
            let k : Int := n - 324 + (decimal c).length - 1
            if plainFrom ≤ k ∧ k < plainBelow then plain (decimal c) k
            else exponential (decimal c) k := by
          rw [magnitudeText, if_neg hzero, shortest, hbest]
        dsimp only at htext hn
        split at htext
        · rename_i hplain
          obtain ⟨x, hx, hdenotes⟩ := Json.exists_plain hc rfl hplain.2
          exact ⟨x, c, n, htext ▸ hx, hdenotes, hpoint⟩
        · have hexponent : ((n : Int) - 324 + (decimal c).length - 1).natAbs ≤ Json.maxExponent := by
            unfold Json.maxExponent
            omega
          obtain ⟨x, hx, hdenotes⟩ := Json.exists_exponential rfl hexponent
          exact ⟨x, c, n, htext ▸ hx, hdenotes, hpoint⟩

end Binary64

namespace Json

theorem absorb_of_lt {n : Nat} {ds : List Nat} (h : n * 10 ^ ds.length + ofDigits 10 ds < 2 ^ 64) :
    absorb n ds = (n * 10 ^ ds.length + ofDigits 10 ds, []) := by
  induction ds generalizing n with
  | nil => simp [absorb, ofDigits]
  | cons d ds ih =>
      have hvalue : n * 10 ^ (d :: ds).length + ofDigits 10 (d :: ds) =
          (n * 10 + d) * 10 ^ ds.length + ofDigits 10 ds := by
        rw [ofDigits_cons, List.length_cons, Nat.pow_succ]
        ring
      rw [hvalue] at h ⊢
      have hlt : n * 10 + d < Nat.pow 2 64 :=
        Nat.lt_of_le_of_lt (Nat.le_trans (Nat.le_mul_of_pos_right _ (Nat.pow_pos (by decide)))
          (Nat.le_add_right _ _)) h
      rw [absorb, if_pos hlt, ih h]

theorem absorb_mul_le (n : Nat) (ds : List Nat) :
    (absorb n ds).1 * 10 ^ (absorb n ds).2.length ≤ n * 10 ^ ds.length + ofDigits 10 ds := by
  induction ds generalizing n with
  | nil => simp [absorb, ofDigits]
  | cons d ds ih =>
      have hvalue : n * 10 ^ (d :: ds).length + ofDigits 10 (d :: ds) =
          (n * 10 + d) * 10 ^ ds.length + ofDigits 10 ds := by
        rw [ofDigits_cons, List.length_cons, Nat.pow_succ]
        ring
      rw [absorb]
      split
      · rw [hvalue]
        exact ih _
      · exact Nat.le_add_right _ _

theorem Numeral.Denotes.magnitude?_eq {x : Numeral} {c : Nat} {last : Int} (h : x.Denotes c last) :
    x.magnitude? = scale? (.ofNat (absorb (ofDigits 10 x.whole) x.fraction).1)
      (x.power - (x.fraction.length - (absorb (ofDigits 10 x.whole) x.fraction).2.length : Nat)) := by
  have hall : 0 * 10 ^ x.whole.length + ofDigits 10 x.whole = ofDigits 10 x.whole := by
    rw [Nat.zero_mul, Nat.zero_add]
  have hfirst : absorb 0 x.whole = (ofDigits 10 x.whole, []) := by
    rw [absorb_of_lt (Nat.lt_of_le_of_lt (Nat.le_of_eq hall) h.whole), hall]
  unfold Numeral.magnitude?
  simp only [hfirst, if_neg (Nat.not_lt.mpr h.exponent), Numeral.power]
  congr 1
  split <;> simp <;> omega

theorem Numeral.Denotes.magnitude? {x : Numeral} {c n : Nat} (h : x.Denotes c (n - 324)) :
    ∃ (m : Nat) (k : Int), m < 2 ^ 64 ∧ x.magnitude? = scale? (.ofNat m) k ∧
      ∀ j : Nat, k = j → m * 10 ^ (j + 324) ≤ c * 10 ^ n := by
  obtain ⟨z, hvalue, hpower⟩ := h.value
  have hle := absorb_mul_le (ofDigits 10 x.whole) x.fraction
  have hlength := length_absorb_le (ofDigits 10 x.whole) x.fraction
  rw [← ofDigits_append, hvalue] at hle
  refine ⟨_, _, absorb_lt h.whole x.fraction, h.magnitude?_eq, fun j hj => ?_⟩
  generalize (absorb (ofDigits 10 x.whole) x.fraction).1 = m at hle ⊢
  generalize (absorb (ofDigits 10 x.whole) x.fraction).2.length = left at hle hlength hj
  have hsum : j + 324 + z = left + n := by omega
  refine Nat.le_of_mul_le_mul_right (c := 10 ^ z) ?_ (Nat.pow_pos (by decide))
  calc m * 10 ^ (j + 324) * 10 ^ z = m * 10 ^ left * 10 ^ n := by
        rw [Nat.mul_assoc, Nat.mul_assoc, ← Nat.pow_add, ← Nat.pow_add, hsum]
    _ ≤ c * 10 ^ z * 10 ^ n := Nat.mul_le_mul_right _ hle
    _ = c * 10 ^ n * 10 ^ z := Nat.mul_right_comm c _ _

theorem isSome_magnitude?_last {m : Nat} {x : Numeral} (h : Spelling (Binary64.magnitudeText m 2045) x)
    (hm : m = 2 ^ 53 - 1 ∨ m = 2 ^ 53 - 2) : x.magnitude?.isSome := by
  -- So close to overflow there is no room for three roundings: each double is looked at.
  have hread : ∀ m ∈ [2 ^ 53 - 1, 2 ^ 53 - 2],
      ((unsigned false (Binary64.magnitudeText m 2045 ++ [])).bind fun r =>
        r.1.magnitude?).isSome := by
    decide +kernel
  have hx := hread m (by simpa using hm)
  rw [h.read false [] stops_nil, ← h.positive] at hx
  exact hx

theorem double_le_of_units {m e a : Nat} (hm : m < 2 ^ 53) (he : e ≤ 2045)
    (hlast : ¬ (e = 2045 ∧ 2 ^ 53 - 2 ≤ m)) (h : a * (4 * Binary64.one) ≤ (4 * m + 2) * 2 ^ e) :
    2 * a ≤ (2 ^ 54 - 5) * Binary64.topPlace := by
  obtain ⟨k, hk, hunit⟩ := Binary64.exists_lastUnit
  rw [Binary64.lastUnit] at hunit
  have hone := Binary64.one_pos
  generalize Binary64.one = b at h hunit hone
  generalize Binary64.topPlace = t at hunit ⊢
  rw [← hk] at he hlast
  by_cases htop : e = k
  · subst htop
    have hfour : a * 4 ≤ (2 ^ 55 - 10) * t := by
      refine Nat.le_of_mul_le_mul_right (c := b) ?_ hone
      calc a * 4 * b = a * (4 * b) := Nat.mul_assoc ..
        _ ≤ (4 * m + 2) * (t * b) := hunit ▸ h
        _ ≤ (2 ^ 55 - 10) * (t * b) := Nat.mul_le_mul_right _ (by omega)
        _ = (2 ^ 55 - 10) * t * b := (Nat.mul_assoc ..).symm
    omega
  · have height : a * 8 ≤ 2 ^ 55 * t := by
      refine Nat.le_of_mul_le_mul_right (c := b) ?_ hone
      have hpow : 2 ^ (e + 1) ≤ t * b := hunit ▸ Nat.pow_le_pow_right (by decide) (by omega)
      calc a * 8 * b = a * (4 * b) * 2 := by ring
        _ ≤ (4 * m + 2) * 2 ^ e * 2 := Nat.mul_le_mul_right _ h
        _ = (4 * m + 2) * 2 ^ (e + 1) := by rw [Nat.mul_assoc, ← Nat.pow_succ]
        _ ≤ 2 ^ 55 * (t * b) := Nat.mul_le_mul (by omega) hpow
        _ = 2 ^ 55 * t * b := (Nat.mul_assoc ..).symm
    omega

theorem exists_magnitude?_of_written {m e c n : Nat} {x : Numeral} (h : Binary64.Written m e x c n) :
    ∃ (m' : Nat) (k : Int), m' < 2 ^ 64 ∧ x.magnitude? = scale? (.ofNat m') k ∧
      ∀ j : Nat, k = j → m' * 10 ^ j * (4 * Binary64.one) ≤ (4 * m + 2) * 2 ^ e := by
  obtain ⟨m', k, hm', hmagnitude, hbound⟩ := h.denotes.magnitude?
  refine ⟨m', k, hm', hmagnitude, fun j hj => ?_⟩
  have hscaled := hbound j hj
  obtain ⟨g, hg, hunit⟩ := Binary64.exists_gridUnit
  rw [← hg] at hscaled
  refine Nat.le_of_mul_le_mul_right (c := Binary64.gridUnit) ?_ Binary64.gridUnit_pos
  calc m' * 10 ^ j * (4 * Binary64.one) * Binary64.gridUnit
      = m' * 10 ^ (j + g) * (4 * Binary64.one) := by
        rw [hunit, Nat.pow_add]
        ring
    _ ≤ c * 10 ^ n * (4 * Binary64.one) := Nat.mul_le_mul_right _ hscaled
    _ = c * Binary64.gridStep n := Nat.mul_assoc ..
    _ ≤ (4 * m + 2) * 2 ^ e * Binary64.gridUnit := Binary64.onGridScale_eq _ ▸ h.bounded

theorem isSome_magnitude? {m e c n : Nat} {x : Numeral} (hm : m < 2 ^ 53) (he : e ≤ 2045)
    (h : Binary64.Written m e x c n) : x.magnitude?.isSome := by
  by_cases hlast : e = 2045 ∧ 2 ^ 53 - 2 ≤ m
  · obtain ⟨rfl, hm'⟩ := hlast
    exact isSome_magnitude?_last h.spelling (by omega)
  obtain ⟨m', k, -, hmagnitude, hbound⟩ := exists_magnitude?_of_written h
  rw [hmagnitude, scale?]
  split
  · rfl
  · rename_i hk
    refine isSome_scaleUp? ?_
    have hroom := double_le_of_units hm he hlast (hbound k.toNat (by omega))
    have htop : 0 < Binary64.topPlace := Binary64.two_pow_le_topPlace (Nat.zero_le _)
    have hroundings : (2 ^ 54 - 5) * (2 ^ 53 + 1) ^ 2 < 2 ^ 106 * (2 ^ 54 - 1) := by decide
    calc 2 * (m' * 10 ^ k.toNat) * (2 ^ 53 + 1) ^ 2
        ≤ (2 ^ 54 - 5) * Binary64.topPlace * (2 ^ 53 + 1) ^ 2 := Nat.mul_le_mul_right _ hroom
      _ = (2 ^ 54 - 5) * (2 ^ 53 + 1) ^ 2 * Binary64.topPlace := Nat.mul_right_comm ..
      _ < 2 ^ 106 * (2 ^ 54 - 1) * Binary64.topPlace := Nat.mul_lt_mul_of_pos_right hroundings htop
      _ = 2 ^ 106 * ((2 ^ 54 - 1) * Binary64.topPlace) := Nat.mul_assoc ..

/-- What the text of some numeral can stand for. -/
def Number.Regular : Number → Prop
  | .natural _ => True
  | .negative n => n ≠ 0 ∧ n.toNat ≤ 2 ^ 63
  | .float x => x.Proper

theorem proper_of_scale? {x y : Binary64} {k : Int} (hx : x.Proper)
    (hunits : x.units ≤ 2 ^ 65 * Binary64.one) (h : scale? x k = some y) : y.Proper := by
  unfold scale? at h
  split at h
  · obtain rfl := Option.some.inj h
    exact proper_scaleDown hunits _
  · exact proper_of_scaleUp? hx h

namespace Numeral

variable {x : Numeral}

theorem proper_of_magnitude? {y : Binary64} (h : x.magnitude? = some y) : y.Proper := by
  have hzero : 0 < 2 ^ 64 := Nat.two_pow_pos 64
  have hlt := absorb_lt (absorb_lt hzero x.whole) x.fraction
  unfold magnitude? at h
  dsimp only at h
  split at h
  · split at h
    · obtain rfl := Option.some.inj h
      exact Binary64.proper_zero false
    · cases h
  · exact proper_of_scale? (Binary64.proper_ofNat hlt) (Binary64.units_ofNat_le hlt) h

theorem number?_of_real (h : x.isInteger = false) :
    x.number? = x.magnitude?.map fun y => .float (if x.negative then y.negate else y) := by
  unfold number?
  simp only [h, Bool.false_and, Bool.false_eq_true, if_false]
  cases x.magnitude? <;> rfl

theorem regular_of_number? {y : Number} (h : x.number? = some y) : y.Regular := by
  unfold number? at h
  dsimp only at h
  split at h
  · obtain rfl := Option.some.inj h
    trivial
  · split at h
    · rename_i hnegative
      obtain rfl := Option.some.inj h
      simp only [Bool.and_eq_true, decide_eq_true_eq, bne_iff_ne] at hnegative
      obtain ⟨⟨-, hle⟩, hne⟩ := hnegative
      have hvalue : (ofDigits 10 x.whole).toUInt64.toNat = ofDigits 10 x.whole :=
        UInt64.toNat_ofNat_of_lt (Nat.lt_of_le_of_lt hle (by decide))
      refine ⟨fun hzero => hne ?_, Nat.le_trans (Nat.le_of_eq hvalue) hle⟩
      rw [← hvalue, hzero]
      rfl
    · obtain ⟨z, hz, hy⟩ := Option.bind_eq_some_iff.mp h
      obtain rfl := Option.some.inj hy
      have hproper := proper_of_magnitude? hz
      change Binary64.Proper _
      split
      · exact Binary64.proper_negate.mpr hproper
      · exact hproper

end Numeral

namespace Number

def reread (x : Number) : Number := ((numeral x.text).bind fun r => r.1.number?).getD x

theorem reread_of_spells {x z : Number} {y : Numeral} (h : Spells x.text y)
    (hz : y.number? = some z) : x.reread = z := by
  have hread := h [] stops_nil
  rw [List.append_nil] at hread
  rw [reread, hread, Option.bind_some, hz]
  rfl

theorem numeral_natural (n : UInt64) :
    ∃ y : Numeral, Spells (natural n).text y ∧ y.number? = some (.natural n) := by
  refine ⟨_, (spelling_decimal n.toNat).spells, ?_⟩
  have hlt : n.toNat < Nat.pow 2 64 := n.toNat_lt
  simp [Numeral.number?, Numeral.isInteger, ofDigits_digits_decimal, hlt]

theorem numeral_negative {n : UInt64} (h : (negative n).Regular) :
    ∃ y : Numeral, Spells (negative n).text y ∧ y.number? = some (.negative n) := by
  refine ⟨_, (spelling_decimal n.toNat).spells_minus, ?_⟩
  obtain ⟨hne, hle⟩ := h
  have hle' : n.toNat ≤ Nat.pow 2 63 := hle
  have hne' : n.toNat ≠ 0 := fun hzero => hne (UInt64.toNat_inj.mp hzero)
  simp [Numeral.number?, Numeral.isInteger, ofDigits_digits_decimal, hle', hne']

theorem numeral_of_written {m e c n : Nat} {y : Numeral} {z : Binary64}
    (h : Binary64.Written m e y c n) (hz : y.magnitude? = some z) (negative : Bool) :
    ∃ y' : Numeral, Spells (float (.finite negative m e)).text y' ∧
      y'.number? = some (.float (if negative then z.negate else z)) := by
  have hreal := h.denotes.isInteger
  cases negative with
  | false =>
      refine ⟨y, h.spelling.spells, ?_⟩
      rw [Numeral.number?_of_real hreal, hz, h.spelling.positive]
      rfl
  | true =>
      refine ⟨{ y with negative := true }, h.spelling.spells_minus, ?_⟩
      rw [Numeral.number?_of_real (x := { y with negative := true }) hreal]
      change Option.map _ y.magnitude? = _
      rw [hz]
      rfl

theorem numeral_float {x : Binary64} (h : x.Proper) :
    ∃ (y : Numeral) (z : Binary64), Spells (float x).text y ∧ y.number? = some (.float z) := by
  cases x with
  | nan => exact h.elim
  | infinite s => exact h.elim
  | finite s m e =>
      obtain ⟨hm, he, -⟩ := h
      obtain ⟨y, c, n, hwritten⟩ := Binary64.exists_written hm he
      obtain ⟨z, hz⟩ := Option.isSome_iff_exists.mp (isSome_magnitude? hm he hwritten)
      obtain ⟨y', hspells, hnumber⟩ := numeral_of_written hwritten hz s
      exact ⟨y', _, hspells, hnumber⟩

theorem exists_numeral {x : Number} (h : x.Regular) :
    ∃ y : Numeral, Spells x.text y ∧ y.number? = some x.reread := by
  cases x with
  | natural n =>
      obtain ⟨y, hy, hz⟩ := numeral_natural n
      exact ⟨y, hy, by rw [reread_of_spells hy hz, hz]⟩
  | negative n =>
      obtain ⟨y, hy, hz⟩ := numeral_negative h
      exact ⟨y, hy, by rw [reread_of_spells hy hz, hz]⟩
  | float x =>
      obtain ⟨y, z, hy, hz⟩ := numeral_float h
      exact ⟨y, hy, by rw [reread_of_spells hy hz, hz]⟩

theorem exists_reread {m e : Nat} (hm : m < 2 ^ 53) (he : e ≤ 2045) :
    ∃ (y : Numeral) (c n : Nat) (z : Binary64), Binary64.Written m e y c n ∧
      y.magnitude? = some z ∧ (float (.finite false m e)).reread = .float z := by
  obtain ⟨y, c, n, hwritten⟩ := Binary64.exists_written hm he
  obtain ⟨z, hz⟩ := Option.isSome_iff_exists.mp (isSome_magnitude? hm he hwritten)
  obtain ⟨y', hspells, hnumber⟩ := numeral_of_written hwritten hz false
  exact ⟨y, c, n, z, hwritten, hz, reread_of_spells hspells hnumber⟩

theorem reread_natural (n : UInt64) : (natural n).reread = .natural n := by
  obtain ⟨y, hy, hz⟩ := numeral_natural n
  exact reread_of_spells hy hz

theorem reread_negative {n : UInt64} (h : (negative n).Regular) :
    (negative n).reread = .negative n := by
  obtain ⟨y, hy, hz⟩ := numeral_negative h
  exact reread_of_spells hy hz

end Number

end Json

end InbandTrace
