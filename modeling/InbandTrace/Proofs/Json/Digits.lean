import InbandTrace.Json.Numeral
import Mathlib.Tactic.Ring

namespace InbandTrace

namespace Text

def digits (s : List Char) : List Nat := s.map fun c => c.toNat - 48

@[simp]
theorem length_digits (s : List Char) : (digits s).length = s.length := List.length_map ..

@[simp]
theorem digits_append (s t : List Char) : digits (s ++ t) = digits s ++ digits t :=
  List.map_append ..

theorem digits_replicate (n : Nat) : digits (List.replicate n '0') = List.replicate n 0 :=
  List.map_replicate

theorem spanDigits_append {s rest : List Char} (hs : ∀ c ∈ s, c.isDigit = true)
    (hrest : ∀ c ∈ rest.head?, c.isDigit = false) :
    spanDigits decimalDigit? (s ++ rest) = (digits s, rest) := by
  induction s with
  | nil =>
      cases rest with
      | nil => rfl
      | cons c rest => simp [spanDigits, decimalDigit?, hrest c rfl, digits]
  | cons c s ih =>
      have hdigit := hs c List.mem_cons_self
      have htail := ih fun d hd => hs d (List.mem_cons_of_mem _ hd)
      simp [spanDigits, decimalDigit?, hdigit, htail, digits]

section

variable (xs ys : List Nat)

theorem foldl_ofDigits (n : Nat) :
    xs.foldl (fun n d => n * 10 + d) n = n * 10 ^ xs.length + ofDigits 10 xs := by
  induction xs generalizing n with
  | nil => simp [ofDigits]
  | cons d xs ih =>
      have hcons : ofDigits 10 (d :: xs) = (0 * 10 + d) * 10 ^ xs.length + ofDigits 10 xs := ih _
      rw [List.foldl_cons, ih, hcons, List.length_cons, Nat.pow_succ]
      ring

theorem ofDigits_append :
    ofDigits 10 (xs ++ ys) = ofDigits 10 xs * 10 ^ ys.length + ofDigits 10 ys := by
  rw [ofDigits, List.foldl_append, foldl_ofDigits]
  rfl

theorem ofDigits_cons (d : Nat) : ofDigits 10 (d :: xs) = d * 10 ^ xs.length + ofDigits 10 xs := by
  simpa [ofDigits] using ofDigits_append [d] xs

@[simp]
theorem ofDigits_replicate_zero (n : Nat) : ofDigits 10 (List.replicate n 0) = 0 := by
  induction n with
  | zero => rfl
  | succ n ih => rw [List.replicate_succ, ofDigits_cons, ih, Nat.zero_mul]

theorem digit_le_nine {c : Char} (h : c.isDigit = true) : c.toNat - 48 ≤ 9 := by
  simp only [Char.isDigit, Bool.and_eq_true, decide_eq_true_eq] at h
  have : c.toNat ≤ 57 := h.2
  omega

theorem ofDigits_lt {ds : List Nat} (h : ∀ d ∈ ds, d ≤ 9) : ofDigits 10 ds < 10 ^ ds.length := by
  induction ds with
  | nil => decide
  | cons d ds ih =>
      have hrest := ih fun e he => h e (List.mem_cons_of_mem _ he)
      have hlead := Nat.mul_le_mul_right (10 ^ ds.length) (h d List.mem_cons_self)
      rw [ofDigits_cons, List.length_cons, Nat.pow_succ]
      omega

theorem ofDigits_digits_lt {s : List Char} (h : ∀ c ∈ s, c.isDigit = true) :
    ofDigits 10 (digits s) < 10 ^ s.length := by
  have hnine : ∀ d ∈ digits s, d ≤ 9 := by
    intro d hd
    obtain ⟨c, hc, rfl⟩ := List.mem_map.mp hd
    exact digit_le_nine (h c hc)
  rw [← length_digits s]
  exact ofDigits_lt hnine

end

variable (n : Nat)

theorem isDigit_of_mem_decimal {c : Char} (h : c ∈ decimal n) : c.isDigit = true :=
  Nat.isDigit_of_mem_toDigits (by decide) (by decide) h

theorem decimal_ne_nil : decimal n ≠ [] := Nat.toDigits_ne_nil

theorem ofDigits_digits_decimal : ofDigits 10 (digits (decimal n)) = n := by
  have hread : ∀ (s : List Char) (k : Nat), (digits s).foldl (fun n d => n * 10 + d) k =
      Nat.ofDigitChars 10 s k := by
    intro s
    induction s with
    | nil => exact fun k => rfl
    | cons c s ih =>
        intro k
        rw [Nat.ofDigitChars_cons, ← ih, Nat.mul_comm 10 k]
        rfl
  rw [ofDigits, hread]
  exact Nat.ofDigitChars_toDigits (by decide) (by decide)

theorem head?_decimal (h : n ≠ 0) : (decimal n).head? ≠ some '0' := by
  induction n using Nat.strongRecOn with
  | ind n ih =>
      by_cases hn : n < 10
      · have hall : ∀ n < 10, n ≠ 0 → (decimal n).head? ≠ some '0' := by decide
        exact hall n hn h
      · have hsplit : decimal n = decimal (n / 10) ++ [Nat.digitChar (n % 10)] :=
          Nat.toDigits_of_base_le (by decide) (by omega)
        have hfirst := ih (n / 10) (by omega) (by omega)
        rw [hsplit]
        cases hlead : decimal (n / 10) with
        | nil => exact absurd hlead (decimal_ne_nil _)
        | cons c s =>
            rw [hlead] at hfirst
            exact hfirst

end Text

end InbandTrace
