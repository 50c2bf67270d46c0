import InbandTrace.Proofs.Json.Readers

namespace InbandTrace.Json

open Text

section

variable {s rest : List Char}

theorem length_skipBlanks_le (s : List Char) : (skipBlanks s).length ≤ s.length :=
  (List.dropWhile_sublist _).length_le

theorem length_literal {w : List Char} (h : literal w s = some rest) :
    rest.length + w.length = s.length := by
  induction w generalizing s with
  | nil =>
      obtain rfl := Option.some.inj h
      rfl
  | cons c w ih =>
      cases s with
      | nil => cases h
      | cons x s =>
          rw [literal] at h
          split at h
          · exact congrArg Nat.succ (ih h)
          · cases h

theorem length_punctuation {c : Char} (h : punctuation c s = some rest) :
    rest.length < s.length := by
  have hliteral := length_literal h
  have hblanks := length_skipBlanks_le s
  rw [List.length_singleton] at hliteral
  omega

theorem length_pieces {ps : List Piece} (h : pieces s = some (ps, rest)) :
    rest.length ≤ s.length := by
  fun_induction pieces s generalizing ps rest with
  | case1 | case3 | case5 | case7 => cases h
  | case2 => cases h; exact Nat.le_succ _
  | case4 a b c d s _ ih =>
      simp only [Option.bind_eq_bind, Option.bind_eq_some_iff] at h
      obtain ⟨n, -, ⟨qs, tail⟩, htail, heq⟩ := h
      cases heq
      exact Nat.le_trans (ih htail) (by simp; omega)
  | case6 e s _ _ ih =>
      simp only [Option.bind_eq_bind, Option.bind_eq_some_iff] at h
      obtain ⟨x, -, ⟨qs, tail⟩, htail, heq⟩ := h
      cases heq
      exact Nat.le_trans (ih htail) (by simp; omega)
  | case8 e s _ _ _ ih =>
      simp only [Option.bind_eq_bind, Option.bind_eq_some_iff] at h
      obtain ⟨⟨qs, tail⟩, htail, heq⟩ := h
      cases heq
      exact Nat.le_succ_of_le (ih htail)

theorem length_quoted {ps : List Piece} (h : quoted s = some (ps, rest)) :
    rest.length < s.length := by
  obtain ⟨t, ht, hpieces⟩ := Option.bind_eq_some_iff.mp h
  exact Nat.lt_of_le_of_lt (length_pieces hpieces) (length_punctuation ht)

theorem length_of_spanDigits {digit? : Char → Option Nat} {ds : List Nat}
    (h : spanDigits digit? s = (ds, rest)) : rest.length ≤ s.length := by
  have hspan := length_spanDigits_le digit? s
  rwa [h] at hspan

theorem length_wholePart {ds : List Nat} (h : wholePart s = some (ds, rest)) :
    rest.length ≤ s.length := by
  unfold wholePart at h
  split at h
  · cases h
  · cases h
  · exact length_of_spanDigits (Option.some.inj h)

theorem length_fractionPart {ds : List Nat} (h : fractionPart s = some (ds, rest)) :
    rest.length ≤ s.length := by
  unfold fractionPart at h
  split at h
  · split at h
    · cases h
    · exact Nat.le_succ_of_le (length_of_spanDigits (Option.some.inj h))
  · cases h
    exact Nat.le_refl _

theorem length_exponentPart {negative : Bool} {ds : List Nat}
    (h : exponentPart s = some (negative, ds, rest)) : rest.length ≤ s.length := by
  unfold exponentPart at h
  split at h
  · split at h
    · dsimp only at h
      split at h
      · cases h
      · rename_i hspan
        cases h
        refine Nat.le_succ_of_le (Nat.le_trans (length_of_spanDigits hspan) ?_)
        split <;> simp
    · cases h
      exact Nat.le_refl _
  · cases h
    exact Nat.le_refl _

theorem length_numeral {x : Numeral} (h : numeral s = some (x, rest)) :
    rest.length ≤ s.length := by
  simp only [numeral, Option.bind_eq_bind, Option.bind_eq_some_iff] at h
  obtain ⟨⟨whole, s₁⟩, hwhole, ⟨fraction, s₂⟩, hfraction, h⟩ := h
  obtain ⟨⟨negative, exponent, s₃⟩, hexponent, heq⟩ := h
  cases heq
  refine Nat.le_trans (length_exponentPart hexponent) ?_
  refine Nat.le_trans (length_fractionPart hfraction) ?_
  refine Nat.le_trans (length_wholePart hwhole) ?_
  split <;> simp

end

def Consumes {α : Type} (parse : List Char → Option (α × List Char)) : Prop :=
  ∀ {s x rest}, parse s = some (x, rest) → rest.length ≤ s.length

theorem Consumes.map {α β : Type} {parse : List Char → Option (α × List Char)}
    (h : Consumes parse) (f : α → β) : Consumes fun s => (parse s).map fun r => (f r.1, r.2) := by
  intro s x rest hread
  obtain ⟨⟨y, t⟩, hparse, heq⟩ := Option.map_eq_some_iff.mp hread
  cases heq
  exact h hparse

theorem length_word {w s rest : List Char} {x r : Raw}
    (h : (literal w s).map (x, ·) = some (r, rest)) : rest.length ≤ s.length := by
  obtain ⟨t, ht, heq⟩ := Option.map_eq_some_iff.mp h
  cases heq
  have := length_literal ht
  omega

section

variable {depth : Nat}

theorem consumes_rawValue (hitems : Consumes (rawItems depth))
    (hmembers : Consumes (rawMembers depth)) : Consumes (rawValue (depth + 1)) := by
  intro s r rest h
  rw [rawValue] at h
  refine Nat.le_trans ?_ (length_skipBlanks_le s)
  split at h
  · cases h
  · rename_i c tail hs
    rw [hs, List.length_cons]
    split at h
    · exact Nat.le_succ_of_le (length_word h)
    split at h
    · exact Nat.le_succ_of_le (length_word h)
    split at h
    · exact Nat.le_succ_of_le (length_word h)
    split at h
    · exact Nat.le_succ_of_le (Consumes.map length_pieces Raw.string h)
    split at h
    · split at h
      · rename_i hclose
        cases h
        exact Nat.le_succ_of_le (Nat.le_of_lt (length_punctuation hclose))
      · exact Nat.le_succ_of_le (hitems.map Raw.array h)
    split at h
    · split at h
      · rename_i hclose
        cases h
        exact Nat.le_succ_of_le (Nat.le_of_lt (length_punctuation hclose))
      · exact Nat.le_succ_of_le (hmembers.map Raw.object h)
    · exact Consumes.map length_numeral Raw.number h

theorem consumes_rawItems (hvalue : Consumes (rawValue depth))
    (hitems : Consumes (rawItems depth)) : Consumes (rawItems (depth + 1)) := by
  intro s items rest h
  simp only [rawItems, Option.bind_eq_bind, Option.bind_eq_some_iff] at h
  obtain ⟨⟨item, s₁⟩, hitem, h⟩ := h
  have := hvalue hitem
  dsimp only at h
  split at h
  · rename_i hclose
    cases h
    have := length_punctuation hclose
    omega
  · simp only [Option.bind_eq_some_iff] at h
    obtain ⟨s₂, hcomma, ⟨items, s₃⟩, hrest, heq⟩ := h
    cases heq
    have := length_punctuation hcomma
    have := hitems hrest
    change s₃.length ≤ s.length
    omega

theorem consumes_rawMembers (hvalue : Consumes (rawValue depth))
    (hmembers : Consumes (rawMembers depth)) : Consumes (rawMembers (depth + 1)) := by
  intro s members rest h
  simp only [rawMembers, Option.bind_eq_bind, Option.bind_eq_some_iff] at h
  obtain ⟨⟨key, s₁⟩, hkey, s₂, hcolon, ⟨v, s₃⟩, hv, h⟩ := h
  dsimp only at hcolon h
  have := length_quoted hkey
  have := length_punctuation hcolon
  have := hvalue hv
  split at h
  · rename_i hclose
    cases h
    have := length_punctuation hclose
    omega
  · simp only [Option.bind_eq_some_iff] at h
    obtain ⟨s₄, hcomma, ⟨members, s₅⟩, hrest, heq⟩ := h
    cases heq
    have := length_punctuation hcomma
    have := hmembers hrest
    change s₅.length ≤ s.length
    omega

end

theorem consumes_raw (depth : Nat) : Consumes (rawValue depth) ∧ Consumes (rawItems depth) ∧
    Consumes (rawMembers depth) := by
  -- The three call each other one level down, so they go together.
  induction depth with
  | zero => exact ⟨nofun, nofun, nofun⟩
  | succ depth ih =>
      obtain ⟨hvalue, hitems, hmembers⟩ := ih
      exact ⟨consumes_rawValue hitems hmembers, consumes_rawItems hvalue hitems,
        consumes_rawMembers hvalue hmembers⟩

theorem consumes_readRaw : Consumes readRaw := (consumes_raw _).1

namespace Reader

variable {α β σ : Type}

def Shrinks (r : Reader α) : Prop := ∀ ⦃s x rest⦄, r s = .ok (x, rest) → rest.length ≤ s.length

theorem length_expect {c : Char} {s rest : List Char} (h : expect c s = .ok rest) :
    rest.length < s.length :=
  length_punctuation (ofOption_eq_ok.mp h)

theorem length_separated {first : Bool} {s rest : List Char} (h : separated first s = .ok rest) :
    rest.length ≤ s.length := by
  cases first with
  | true =>
      cases h
      exact Nat.le_refl _
  | false => exact Nat.le_of_lt (length_expect h)

theorem length_text {s x rest : List Char} (h : text s = .ok (x, rest)) :
    rest.length < s.length := by
  obtain ⟨⟨ps, tail⟩, hquoted, h⟩ := bind_eq_ok.mp h
  obtain ⟨y, -, heq⟩ := bind_eq_ok.mp h
  cases heq
  exact length_quoted (ofOption_eq_ok.mp hquoted)

theorem shrinks_text : Shrinks text := fun _ _ _ h => Nat.le_of_lt (length_text h)

section

variable {r : Reader α}

theorem Shrinks.map (h : Shrinks r) (f : α → β) : Shrinks (r.map f) := by
  intro s y rest hread
  obtain ⟨x, hx, -⟩ := map_eq_ok.mp hread
  exact h hx

theorem Shrinks.complete (h : Shrinks r) (finish : α → Option β) : Shrinks (r.complete finish) := by
  intro s y rest hread
  obtain ⟨⟨x, tail⟩, hx, hread⟩ := bind_eq_ok.mp hread
  obtain ⟨z, -, heq⟩ := bind_eq_ok.mp hread
  cases heq
  exact h hx

theorem shrinks_null : Shrinks null := by
  intro s x rest h
  obtain ⟨tail, hliteral, heq⟩ := bind_eq_ok.mp h
  cases heq
  have := length_literal (ofOption_eq_ok.mp hliteral)
  have := length_skipBlanks_le s
  omega

theorem shrinks_bool : Shrinks bool := by
  intro s x rest h
  have hblanks := length_skipBlanks_le s
  unfold bool at h
  split at h
  · rename_i hliteral
    cases h
    have := length_literal hliteral
    omega
  · obtain ⟨tail, hliteral, heq⟩ := bind_eq_ok.mp h
    cases heq
    have := length_literal (ofOption_eq_ok.mp hliteral)
    omega

theorem shrinks_number : Shrinks number := by
  intro s x rest h
  obtain ⟨⟨y, tail⟩, hnumeral, h⟩ := bind_eq_ok.mp h
  obtain ⟨z, -, heq⟩ := bind_eq_ok.mp h
  cases heq
  exact Nat.le_trans (length_numeral (ofOption_eq_ok.mp hnumeral)) (length_skipBlanks_le s)

theorem shrinks_naturalBelow (bound : Nat) : Shrinks (naturalBelow bound) := by
  intro s n rest h
  obtain ⟨⟨x, tail⟩, hx, h⟩ := bind_eq_ok.mp h
  split at h
  · rename_i heq
    cases heq
    split at h
    · cases h
      exact shrinks_number hx
    · cases h
  · cases h

theorem Shrinks.optional (h : Shrinks r) : Shrinks (Reader.optional r) := by
  intro s x rest hread
  unfold Reader.optional at hread
  split at hread
  · exact shrinks_null.map _ hread
  · exact h.map _ hread

theorem shrinks_parsed (form : List Char → Option α) : Shrinks (parsed form) :=
  shrinks_text.complete form

theorem shrinks_skipped : Shrinks skipped := by
  intro s x rest h
  obtain ⟨⟨raw, tail⟩, hread, heq⟩ := bind_eq_ok.mp h
  cases heq
  exact consumes_readRaw (ofOption_eq_ok.mp hread)

theorem shrinks_enumeration {variants : List (Variant α)}
    (h : ∀ n r, .holding n r ∈ variants → Shrinks r) : Shrinks (enumeration variants) := by
  intro s x rest hread
  unfold enumeration at hread
  split at hread
  · rename_i inner hopen
    obtain ⟨⟨key, s₁⟩, hkey, hread⟩ := bind_eq_ok.mp hread
    obtain ⟨s₂, hcolon, hread⟩ := bind_eq_ok.mp hread
    have := length_punctuation hopen
    have := length_text hkey
    have := length_expect hcolon
    dsimp only at hread
    split at hread
    · obtain ⟨⟨y, s₃⟩, hcontent, hread⟩ := bind_eq_ok.mp hread
      obtain ⟨s₄, hclose, heq⟩ := bind_eq_ok.mp hread
      cases heq
      have := shrinks_null.map _ hcontent
      have : rest.length < s₃.length := length_expect hclose
      omega
    · rename_i r hfound
      obtain ⟨⟨y, s₃⟩, hcontent, hread⟩ := bind_eq_ok.mp hread
      obtain ⟨s₄, hclose, heq⟩ := bind_eq_ok.mp hread
      cases heq
      have := h _ r (List.mem_of_find?_eq_some hfound) hcontent
      have : rest.length < s₃.length := length_expect hclose
      omega
    · cases hread
  · obtain ⟨⟨name, s₁⟩, hname, hread⟩ := bind_eq_ok.mp hread
    dsimp only at hread
    split at hread
    · cases hread
      exact shrinks_text hname
    · cases hread

theorem Shrinks.items (h : Shrinks r) (n : Nat) : Shrinks (Reader.items r n) := by
  induction n with
  | zero => exact nofun
  | succ n ih =>
      intro s xs rest hread
      obtain ⟨⟨x, s₁⟩, hx, hread⟩ := bind_eq_ok.mp hread
      have := h hx
      dsimp only at hread
      split at hread
      · rename_i hclose
        cases hread
        have := length_punctuation hclose
        omega
      · obtain ⟨s₂, hcomma, hread⟩ := bind_eq_ok.mp hread
        obtain ⟨⟨ys, s₃⟩, hys, heq⟩ := bind_eq_ok.mp hread
        cases heq
        have := length_expect hcomma
        have := ih hys
        change s₃.length ≤ s.length
        omega

theorem Shrinks.list (h : Shrinks r) : Shrinks (Reader.list r) := by
  intro s xs rest hread
  obtain ⟨s₁, hopen, hread⟩ := bind_eq_ok.mp hread
  have := length_expect hopen
  split at hread
  · rename_i hclose
    cases hread
    have := length_punctuation hclose
    omega
  · have := h.items _ hread
    omega

end

section

variable {fields : List (Field σ)}

theorem shrinks_content (h : ∀ f ∈ fields, ∀ x, Shrinks (f.read x)) (key : List Char) (x : σ) :
    Shrinks (content fields key x) := by
  intro s y rest hread
  unfold content at hread
  split at hread
  · rename_i f hfound
    split at hread
    · cases hread
    · exact h f (List.mem_of_find?_eq_some hfound) x hread
  · exact shrinks_skipped.map _ hread

theorem shrinks_fieldMembers (h : ∀ f ∈ fields, ∀ x, Shrinks (f.read x)) (n : Nat) (x : σ) :
    Shrinks (fieldMembers fields n x) := by
  induction n generalizing x with
  | zero => exact nofun
  | succ n ih =>
      intro s z rest hread
      rw [fieldMembers_succ] at hread
      obtain ⟨⟨key, s₁⟩, hkey, hread⟩ := bind_eq_ok.mp hread
      obtain ⟨s₂, hcolon, hread⟩ := bind_eq_ok.mp hread
      obtain ⟨⟨y, s₃⟩, hcontent, hread⟩ := bind_eq_ok.mp hread
      have := length_text hkey
      have : s₂.length < s₁.length := length_expect hcolon
      have := shrinks_content h key x hcontent
      unfold proceed at hread
      split at hread
      · rename_i hclose
        cases hread
        have : rest.length < s₃.length := length_punctuation hclose
        omega
      · obtain ⟨s₄, hcomma, hread⟩ := bind_eq_ok.mp hread
        have : s₄.length < s₃.length := length_expect hcomma
        have := ih y hread
        omega

theorem shrinks_fieldItems (h : ∀ f ∈ fields, ∀ x, Shrinks (f.read x)) (first : Bool) (x : σ) :
    Shrinks (fieldItems fields first x) := by
  induction fields generalizing first x with
  | nil =>
      intro s y rest hread
      obtain ⟨tail, hclose, heq⟩ := bind_eq_ok.mp hread
      cases heq
      exact Nat.le_of_lt (length_expect hclose)
  | cons f fields ih =>
      intro s z rest hread
      rw [fieldItems_cons] at hread
      obtain ⟨s₁, hfirst, hread⟩ := bind_eq_ok.mp hread
      obtain ⟨⟨y, s₂⟩, hcontent, hread⟩ := bind_eq_ok.mp hread
      have := length_separated hfirst
      have := h f List.mem_cons_self x hcontent
      have : rest.length ≤ s₂.length :=
        ih (fun g hg => h g (List.mem_cons_of_mem _ hg)) false y hread
      omega

theorem shrinks_record (h : ∀ f ∈ fields, ∀ x, Shrinks (f.read x)) (empty : σ) :
    Shrinks (record fields empty) := by
  intro s x rest hread
  unfold record at hread
  split at hread
  · rename_i tail hopen
    have := length_punctuation hopen
    have := shrinks_fieldItems h true empty hread
    omega
  · obtain ⟨s₁, hopen, hread⟩ := bind_eq_ok.mp hread
    have := length_expect hopen
    split at hread
    · rename_i hclose
      cases hread
      have := length_punctuation hclose
      omega
    · have := shrinks_fieldMembers h _ empty hread
      omega

end

end Reader

end InbandTrace.Json
