import InbandTrace.Json.Quoted

namespace InbandTrace

open Text

theorem Text.scalar?_toNat (c : Char) : scalar? c.toNat = some c := by
  have hvalid : c.toNat.isValidChar := c.valid
  rw [scalar?, dif_pos hvalid]
  rfl

namespace Json

def piece (c : Char) : Piece :=
  if c.toNat < 0x20 ∧ c ∉ ['\x08', '\t', '\n', '\x0c', '\r'] then .unit c.toNat else .char c

theorem codeUnit?_padded {n : Nat} (h : n < 0x20) :
    ∃ a b c d, padded 4 (hexadecimal n) = [a, b, c, d] ∧ codeUnit? a b c d = some n := by
  have hread : ∀ n < 0x20,
      padded 4 (hexadecimal n) = ['0', '0', Nat.digitChar (n / 16), Nat.digitChar (n % 16)] ∧
        codeUnit? '0' '0' (Nat.digitChar (n / 16)) (Nat.digitChar (n % 16)) = some n := by
    decide
  exact ⟨_, _, _, _, hread n h⟩

variable (rest : List Char)

theorem pieces_closing : pieces ('"' :: rest) = some ([], rest) := by
  rw [pieces.eq_def]
  rfl

theorem pieces_short {e x : Char} (he : e ≠ 'u') (hx : shortEscape? e = some x) :
    pieces ('\\' :: e :: rest) = (pieces rest).map fun r => (.char x :: r.1, r.2) := by
  rw [pieces.eq_def]
  simp only [Char.reduceEq, if_false, if_true, he, hx, Option.bind_eq_bind, Option.bind_some]
  cases pieces rest <;> rfl

theorem pieces_unit {a b c d : Char} {n : Nat} (h : codeUnit? a b c d = some n) :
    pieces ('\\' :: 'u' :: a :: b :: c :: d :: rest) =
      (pieces rest).map fun r => (.unit n :: r.1, r.2) := by
  rw [pieces]
  simp only [Char.reduceEq, if_false, if_true, h, Option.bind_eq_bind, Option.bind_some]
  cases pieces rest <;> rfl

theorem pieces_plain {c : Char} (hquote : c ≠ '"') (hslash : c ≠ '\\') (hc : ¬ c.toNat < 0x20) :
    pieces (c :: rest) = (pieces rest).map fun r => (.char c :: r.1, r.2) := by
  rw [pieces.eq_def]
  simp only [if_neg hquote, if_neg hslash, if_neg hc]
  cases pieces rest <;> rfl

theorem pieces_escape (c : Char) :
    pieces (escape c ++ rest) = (pieces rest).map fun r => (piece c :: r.1, r.2) := by
  by_cases hshort : c ∈ ['"', '\\', '\x08', '\t', '\n', '\x0c', '\r']
  · simp only [List.mem_cons, List.not_mem_nil, or_false] at hshort
    rcases hshort with rfl | rfl | rfl | rfl | rfl | rfl | rfl <;>
      exact pieces_short rest (by decide) rfl
  · simp only [List.mem_cons, List.not_mem_nil, or_false, not_or] at hshort
    obtain ⟨hquote, hslash, hb, ht, hn, hf, hr⟩ := hshort
    by_cases hcontrol : c.toNat < 0x20
    · obtain ⟨w, x, y, z, hpadded, hunit⟩ := codeUnit?_padded hcontrol
      have hpiece : piece c = .unit c.toNat := by simp [piece, hb, ht, hn, hf, hr, hcontrol]
      simp only [escape, hquote, hslash, hb, ht, hn, hf, hr, hcontrol, if_false, if_true, hpadded,
        hpiece]
      exact pieces_unit rest hunit
    · have hpiece : piece c = .char c := by simp [piece, hcontrol]
      simp only [escape, hquote, hslash, hb, ht, hn, hf, hr, hcontrol, if_false, hpiece]
      exact pieces_plain rest hquote hslash hcontrol

theorem pieces_body (s : List Char) :
    pieces (s.flatMap escape ++ '"' :: rest) = some (s.map piece, rest) := by
  induction s with
  | nil => exact pieces_closing rest
  | cons c s ih => simp [List.append_assoc, pieces_escape, ih]

theorem decode?_cons_piece (c : Char) (ps : List Piece) :
    decode? (piece c :: ps) = (decode? ps).map (c :: ·) := by
  unfold piece
  split
  · rename_i h
    have hhigh : isHighSurrogate c.toNat = false := by
      simp only [isHighSurrogate, Bool.and_eq_false_iff, decide_eq_false_iff_not]
      omega
    rw [decode?.eq_def]
    simp only [hhigh, Bool.false_eq_true, if_false, scalar?_toNat]
    cases decode? ps <;> rfl
  · rw [decode?]

theorem decode?_pieces (s : List Char) : decode? (s.map piece) = some s := by
  induction s with
  | nil => rfl
  | cons c s ih => rw [List.map_cons, decode?_cons_piece, ih, Option.map_some]

end Json

end InbandTrace
