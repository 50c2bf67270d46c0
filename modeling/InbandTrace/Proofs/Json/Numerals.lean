import InbandTrace.Proofs.Json.Digits
import Mathlib.Tactic.Ring

namespace InbandTrace.Json

open Text

def Stops (rest : List Char) : Prop :=
  ∀ c ∈ rest.head?, c.isDigit = false ∧ c ∉ ['.', 'e', 'E']

def Spells (s : List Char) (x : Numeral) : Prop :=
  ∀ rest, Stops rest → numeral (s ++ rest) = some (x, rest)

theorem stops_nil : Stops [] := nofun

theorem stops_cons {c : Char} (rest : List Char) (hdigit : c.isDigit = false)
    (hc : c ∉ ['.', 'e', 'E']) : Stops (c :: rest) := by
  rintro d hd
  cases hd
  exact ⟨hdigit, hc⟩

def fractionText : List Char → List Char
  | [] => []
  | c :: s => '.' :: c :: s

def exponentText (negative : Bool) : List Char → List Char
  | [] => []
  | c :: s => 'e' :: (if negative then '-' else '+') :: c :: s

/-- Digits of which the first is no zero, unless it is the only one. -/
structure Leading (s : List Char) : Prop where
  digits : ∀ c ∈ s, c.isDigit = true
  ne_nil : s ≠ []
  zero : s.head? = some '0' → s.length = 1

section

variable {s rest : List Char}

theorem wholePart_append (hs : Leading s) (hrest : ∀ c ∈ rest.head?, c.isDigit = false) :
    wholePart (s ++ rest) = some (digits s, rest) := by
  rw [wholePart, spanDigits_append hs.digits hrest]
  cases s with
  | nil => exact absurd rfl hs.ne_nil
  | cons c s =>
      cases s with
      | nil => cases hc : c.toNat - 48 <;> simp [digits, hc]
      | cons d s =>
          have hdigit := hs.digits c List.mem_cons_self
          have hzero : c ≠ '0' := by
            rintro rfl
            have := hs.zero rfl
            simp at this
          have hlead : c.toNat - 48 ≠ 0 := by
            simp only [Char.isDigit, Bool.and_eq_true, decide_eq_true_eq] at hdigit
            have hne : c.toNat ≠ 48 := fun h => hzero (Char.toNat_inj.mp h)
            have : 48 ≤ c.toNat := hdigit.1
            omega
          obtain ⟨n, hn⟩ := Nat.exists_eq_succ_of_ne_zero hlead
          simp [digits, hn]

theorem fractionPart_append (hs : ∀ c ∈ s, c.isDigit = true)
    (hrest : ∀ c ∈ rest.head?, c.isDigit = false ∧ c ≠ '.') :
    fractionPart (fractionText s ++ rest) = some (digits s, rest) := by
  cases s with
  | nil =>
      cases rest with
      | nil => rfl
      | cons c rest =>
          obtain ⟨-, hpoint⟩ := hrest c rfl
          rw [fractionText, List.nil_append, fractionPart]
          · rfl
          · rintro _ ⟨⟩
            exact hpoint rfl
  | cons c s =>
      have hspan := spanDigits_append hs fun d hd => (hrest d hd).1
      rw [List.cons_append] at hspan
      simp [fractionText, fractionPart, hspan, digits]

theorem exponentPart_append (negative : Bool) (hs : ∀ c ∈ s, c.isDigit = true)
    (hrest : Stops rest) :
    exponentPart (exponentText negative s ++ rest) =
      some (negative && !s.isEmpty, digits s, rest) := by
  cases s with
  | nil =>
      cases rest with
      | nil => simp [exponentText, exponentPart, digits]
      | cons c rest =>
          obtain ⟨-, hc⟩ := hrest c rfl
          simp only [List.mem_cons, List.not_mem_nil, or_false, not_or] at hc
          simp [exponentText, exponentPart, digits, hc]
  | cons c s =>
      have hspan := spanDigits_append hs fun d hd => (hrest d hd).1
      rw [List.cons_append] at hspan
      cases negative <;> simp [exponentText, exponentPart, hspan, digits]

end

def unsigned (negative : Bool) (s : List Char) : Option (Numeral × List Char) := do
  let (whole, s) ← wholePart s
  let (fraction, s) ← fractionPart s
  let (exponentNegative, exponent, s) ← exponentPart s
  return (⟨negative, whole, fraction, exponentNegative, exponent⟩, s)

theorem numeral_of_head? {s : List Char} (h : s.head? ≠ some '-') :
    numeral s = unsigned false s := by
  unfold numeral
  split
  rename_i heq
  split at heq
  · exact absurd rfl h
  · cases heq
    rfl

theorem unsigned_parts {whole fraction exponent rest : List Char} (negative minus : Bool)
    (hwhole : Leading whole) (hfraction : ∀ c ∈ fraction, c.isDigit = true)
    (hexponent : ∀ c ∈ exponent, c.isDigit = true) (hrest : Stops rest) :
    unsigned negative
        (whole ++ (fractionText fraction ++ (exponentText minus exponent ++ rest))) =
      some (⟨negative, digits whole, digits fraction, minus && !exponent.isEmpty,
        digits exponent⟩, rest) := by
  have hafter : ∀ c ∈ (exponentText minus exponent ++ rest).head?,
      c.isDigit = false ∧ c ≠ '.' := by
    cases exponent with
    | nil =>
        intro c hc
        obtain ⟨hdigit, hne⟩ := hrest c hc
        simp only [List.mem_cons, not_or] at hne
        exact ⟨hdigit, hne.1⟩
    | cons d exponent =>
        rintro c ⟨⟩
        decide
  have hpoint : ∀ c ∈ (fractionText fraction ++ (exponentText minus exponent ++ rest)).head?,
      c.isDigit = false := by
    cases fraction with
    | nil => exact fun c hc => (hafter c hc).1
    | cons d fraction =>
        rintro c ⟨⟩
        decide
  simp [unsigned, wholePart_append hwhole hpoint, fractionPart_append hfraction hafter,
    exponentPart_append minus hexponent hrest]

structure Spelling (s : List Char) (x : Numeral) : Prop where
  positive : x.negative = false
  digit : ∀ c ∈ s.head?, c.isDigit = true
  read : ∀ negative rest, Stops rest →
    unsigned negative (s ++ rest) = some ({ x with negative := negative }, rest)
  value_lt : ofDigits 10 (x.whole ++ x.fraction) < 10 ^ s.countP Char.isDigit
  fraction_le : x.fraction.length ≤ s.countP Char.isDigit
  exponent : 'e' ∉ s → x.exponent = []

theorem length_le_countP {whole fraction : List Char} (s : List Char)
    (hwhole : ∀ c ∈ whole, c.isDigit = true) (hfraction : ∀ c ∈ fraction, c.isDigit = true) :
    whole.length + fraction.length ≤ (whole ++ (fractionText fraction ++ s)).countP Char.isDigit := by
  have htext : (fractionText fraction).countP Char.isDigit = fraction.length := by
    cases fraction with
    | nil => rfl
    | cons c fraction =>
        rw [fractionText, List.countP_cons_of_neg (by decide)]
        exact List.countP_eq_length.mpr hfraction
  rw [List.countP_append, List.countP_append, List.countP_eq_length.mpr hwhole, htext]
  omega

theorem spelling_parts {whole : List Char} (fraction exponent : List Char) (minus : Bool)
    (hwhole : Leading whole) (hfraction : ∀ c ∈ fraction, c.isDigit = true)
    (hexponent : ∀ c ∈ exponent, c.isDigit = true) :
    Spelling (whole ++ (fractionText fraction ++ exponentText minus exponent))
      ⟨false, digits whole, digits fraction, minus && !exponent.isEmpty, digits exponent⟩ := by
  have hcount := length_le_countP (exponentText minus exponent) hwhole.digits hfraction
  refine ⟨rfl, ?_, ?_, ?_, ?_, ?_⟩
  · intro c hc
    cases hw : whole with
    | nil => exact absurd hw hwhole.ne_nil
    | cons d s =>
        rw [hw] at hc
        cases hc
        exact hwhole.digits _ (hw ▸ List.mem_cons_self)
  · intro negative rest hrest
    simp only [List.append_assoc]
    exact unsigned_parts negative minus hwhole hfraction hexponent hrest
  · have hdigits : ∀ c ∈ whole ++ fraction, c.isDigit = true :=
      List.forall_mem_append.mpr ⟨hwhole.digits, hfraction⟩
    have hlt := ofDigits_digits_lt hdigits
    rw [digits_append, List.length_append] at hlt
    exact Nat.lt_of_lt_of_le hlt (Nat.pow_le_pow_right (by decide) hcount)
  · exact Nat.le_trans (Nat.le_of_eq (length_digits _)) (by omega)
  · intro hplain
    cases exponent with
    | nil => rfl
    | cons c exponent => exact absurd (by simp [exponentText]) hplain

namespace Spelling

variable {s : List Char} {x : Numeral}

theorem spells (h : Spelling s x) : Spells s x := by
  intro rest hrest
  cases s with
  | nil => cases h.read false [] stops_nil
  | cons c s =>
      have hdigit := h.digit c rfl
      rw [numeral_of_head?, h.read false rest hrest, ← h.positive]
      intro hminus
      cases hminus
      cases hdigit

theorem spells_minus (h : Spelling s x) : Spells ('-' :: s) { x with negative := true } :=
  fun rest hrest => h.read true rest hrest

end Spelling

theorem leading_of_head? {s : List Char} (hdigits : ∀ c ∈ s, c.isDigit = true) (hne : s ≠ [])
    (hhead : s.head? ≠ some '0') : Leading s :=
  ⟨hdigits, hne, fun hzero => absurd hzero hhead⟩

theorem leading_decimal (n : Nat) : Leading (decimal n) := by
  refine ⟨fun c => isDigit_of_mem_decimal n, decimal_ne_nil n, fun hzero => ?_⟩
  by_cases hn : n = 0
  · subst hn
    rfl
  · exact absurd hzero (head?_decimal n hn)

theorem spelling_decimal (n : Nat) :
    Spelling (decimal n) ⟨false, digits (decimal n), [], false, []⟩ := by
  have h := spelling_parts [] [] false (leading_decimal n) nofun nofun
  rwa [fractionText, exponentText, List.append_nil, List.append_nil] at h

def Numeral.power (x : Numeral) : Int :=
  if x.exponentNegative then -(ofDigits 10 x.exponent : Int) else ofDigits 10 x.exponent

/-- The numeral is no integer and stands for `c * 10 ^ last`, and none of its parts is huge. -/
structure Numeral.Denotes (x : Numeral) (c : Nat) (last : Int) : Prop where
  isInteger : x.isInteger = false
  whole : ofDigits 10 x.whole < 2 ^ 64
  exponent : ofDigits 10 x.exponent ≤ maxExponent
  value : ∃ z : Nat, ofDigits 10 (x.whole ++ x.fraction) = c * 10 ^ z ∧
    x.power - x.fraction.length = last - z

section

variable {c : Nat} {k last : Int}

theorem lt_two_pow_64 {s : List Char} (hs : ∀ d ∈ s, d.isDigit = true) (h : s.length ≤ 16) :
    ofDigits 10 (digits s) < 2 ^ 64 :=
  Nat.lt_of_lt_of_le (ofDigits_digits_lt hs)
    (Nat.le_trans (Nat.pow_le_pow_right (by decide) h) (by decide))

theorem exists_denotes {whole : List Char} (fraction exponent : List Char) (minus : Bool)
    (hwhole : Leading whole) (hfraction : ∀ c ∈ fraction, c.isDigit = true)
    (hexponent : ∀ c ∈ exponent, c.isDigit = true) (hreal : fraction ≠ [] ∨ exponent ≠ [])
    (hsmall : ofDigits 10 (digits whole) < 2 ^ 64)
    (hbounded : ofDigits 10 (digits exponent) ≤ maxExponent) (z : Nat)
    (hvalue : ofDigits 10 (digits (whole ++ fraction)) = c * 10 ^ z)
    (hpower : (if minus && !exponent.isEmpty then -(ofDigits 10 (digits exponent) : Int)
      else ofDigits 10 (digits exponent)) - fraction.length = last - z) :
    ∃ x : Numeral, Spelling (whole ++ (fractionText fraction ++ exponentText minus exponent)) x ∧
      x.Denotes c last := by
  refine ⟨_, spelling_parts fraction exponent minus hwhole hfraction hexponent, ?_, hsmall, hbounded, z, ?_, ?_⟩
  · rcases hreal with hreal | hreal <;> simp [Numeral.isInteger, digits, hreal]
  · rw [← hvalue, digits_append]
  · rw [← hpower, length_digits]
    rfl

theorem isDigit_of_mem_zeros {n : Nat} {d : Char} (h : d ∈ List.replicate n '0') :
    d.isDigit = true := by
  rw [List.eq_of_mem_replicate h]
  rfl

theorem isDigit_of_mem_zero : ∀ d ∈ ['0'], d.isDigit = true :=
  fun _ => isDigit_of_mem_zeros (n := 1)

theorem exists_point {whole : List Char} (fraction : List Char) (hwhole : Leading whole)
    (hfraction : ∀ c ∈ fraction, c.isDigit = true) (hne : fraction ≠ []) (hshort : whole.length ≤ 16)
    (z : Nat) (hvalue : ofDigits 10 (digits (whole ++ fraction)) = c * 10 ^ z)
    (hlast : last = z - fraction.length) :
    ∃ x : Numeral, Spelling (whole ++ '.' :: fraction) x ∧ x.Denotes c last := by
  obtain ⟨d, s, rfl⟩ := List.exists_cons_of_ne_nil hne
  subst hlast
  have hpower : (if false && !([] : List Char).isEmpty then -(ofDigits 10 (digits []) : Int)
      else ofDigits 10 (digits [])) - (d :: s).length = (z - (d :: s).length : Int) - z := by
    simp [ofDigits, digits]
  have h := exists_denotes (d :: s) [] false hwhole hfraction (List.forall_mem_nil _)
    (.inl hne) (lt_two_pow_64 hwhole.digits hshort) (by decide) z hvalue hpower
  rwa [fractionText, exponentText, List.append_nil] at h

theorem exists_leadingZeros (hk : k = last + (decimal c).length - 1) (hneg : k < 0) :
    ∃ x : Numeral,
      Spelling (['0'] ++ '.' :: (List.replicate ((-k).toNat - 1) '0' ++ decimal c)) x ∧
        x.Denotes c last := by
  refine exists_point _ (leading_decimal 0) (fun d hd => ?_) (by simp [decimal_ne_nil])
    (by decide) 0 ?_ ?_
  · exact (List.mem_append.mp hd).elim isDigit_of_mem_zeros (isDigit_of_mem_decimal c)
  · have hzero : ofDigits 10 (digits ['0']) = 0 := rfl
    rw [digits_append, digits_append, digits_replicate, ofDigits_append, ofDigits_append, hzero,
      ofDigits_replicate_zero, ofDigits_digits_decimal]
    ring
  · rw [List.length_append, List.length_replicate]
    omega

theorem exists_trailingZeros (hc : c ≠ 0) {n : Nat} (hlast : last = n)
    (hshort : (decimal c).length + n ≤ 16) :
    ∃ x : Numeral, Spelling (decimal c ++ List.replicate n '0' ++ ".0".toList) x ∧
      x.Denotes c last := by
  have hhead : (decimal c ++ List.replicate n '0').head? ≠ some '0' := by
    rw [List.head?_append, List.head?_eq_some_head (decimal_ne_nil c), Option.some_or,
      ← List.head?_eq_some_head (decimal_ne_nil c)]
    exact head?_decimal c hc
  have hlead : Leading (decimal c ++ List.replicate n '0') :=
    leading_of_head?
      (fun d hd => (List.mem_append.mp hd).elim (isDigit_of_mem_decimal c) isDigit_of_mem_zeros)
      (by simp [decimal_ne_nil]) hhead
  have hzero : ofDigits 10 (digits ['0']) = 0 := rfl
  refine exists_point ['0'] hlead isDigit_of_mem_zero nofun ?_ (n + 1) ?_ ?_
  · rwa [List.length_append, List.length_replicate]
  · simp [digits_replicate, ofDigits_append, ofDigits_digits_decimal, hzero, Nat.pow_succ]
  · rw [hlast, List.length_singleton]
    omega

theorem exists_pointWithin (hc : c ≠ 0) {n : Nat} (hn : n < (decimal c).length) (hpos : 0 < n)
    (hshort : n ≤ 16) (hlast : last = n - (decimal c).length) :
    ∃ x : Numeral, Spelling ((decimal c).take n ++ '.' :: (decimal c).drop n) x ∧
      x.Denotes c last := by
  have hdigits := fun d => isDigit_of_mem_decimal (c := d) c
  have hhead : ((decimal c).take n).head? ≠ some '0' := by
    rw [List.head?_take, if_neg (Nat.ne_of_gt hpos)]
    exact head?_decimal c hc
  have hlead : Leading ((decimal c).take n) :=
    leading_of_head? (fun d hd => hdigits d (List.mem_of_mem_take hd))
      (by simp [decimal_ne_nil, Nat.ne_of_gt hpos]) hhead
  refine exists_point _ hlead (fun d hd => hdigits d (List.mem_of_mem_drop hd)) ?_ ?_ 0 ?_ ?_
  · exact List.drop_eq_nil_iff.not.mpr (Nat.not_le.mpr hn)
  · rw [List.length_take]
    omega
  · rw [List.take_append_drop, ofDigits_digits_decimal, Nat.pow_zero, Nat.mul_one]
  · rw [List.length_drop]
    omega

theorem exists_plain (hc : c ≠ 0) (hk : k = last + (decimal c).length - 1)
    (hbelow : k < Binary64.plainBelow) :
    ∃ x : Numeral, Spelling (Binary64.plain (decimal c) k) x ∧ x.Denotes c last := by
  unfold Binary64.plainBelow at hbelow
  unfold Binary64.plain
  split
  · exact exists_leadingZeros hk ‹_›
  · dsimp only
    split
    · exact exists_trailingZeros hc (by omega) (by omega)
    · exact exists_pointWithin hc (by omega) (Nat.succ_pos _) (by omega) (by omega)

theorem exists_exponential (hk : k = last + (decimal c).length - 1)
    (hbounded : k.natAbs ≤ maxExponent) :
    ∃ x : Numeral, Spelling (Binary64.exponential (decimal c) k) x ∧ x.Denotes c last := by
  have hdigits := fun d => isDigit_of_mem_decimal (c := d) c
  have hvalue := ofDigits_digits_decimal c
  have hexponent := ofDigits_digits_decimal k.natAbs
  have hnonempty : (decimal k.natAbs).isEmpty = false := by simp [decimal_ne_nil]
  obtain ⟨d, s, hd⟩ := List.exists_cons_of_ne_nil (decimal_ne_nil c)
  rw [hd] at hk hdigits hvalue ⊢
  have hlead : Leading [d] := ⟨fun e he => hdigits e (by simp_all), nofun, fun _ => rfl⟩
  have hpower : (if decide (k < 0) && !(decimal k.natAbs).isEmpty then
      -(ofDigits 10 (digits (decimal k.natAbs)) : Int)
      else ofDigits 10 (digits (decimal k.natAbs))) - s.length = last - (0 : Nat) := by
    rw [hexponent, hnonempty]
    rw [List.length_cons] at hk
    by_cases hnegative : k < 0
    · simp only [hnegative, decide_true, Bool.not_false, Bool.and_true, if_true]
      omega
    · simp only [hnegative, decide_false, Bool.false_and, Bool.false_eq_true, if_false]
      omega
  obtain ⟨x, hx, hdenotes⟩ := exists_denotes s (decimal k.natAbs) (decide (k < 0)) hlead
    (fun e he => hdigits e (List.mem_cons_of_mem _ he)) (fun e => isDigit_of_mem_decimal _)
    (.inr (decimal_ne_nil _)) (lt_two_pow_64 hlead.digits (by simp)) (by rwa [hexponent]) 0
    (by simpa using hvalue) hpower
  refine ⟨x, ?_, hdenotes⟩
  convert hx using 1
  obtain ⟨e, t, he⟩ := List.exists_cons_of_ne_nil (decimal_ne_nil k.natAbs)
  cases s <;> simp [Binary64.exponential, fractionText, exponentText, he]

end

end InbandTrace.Json
