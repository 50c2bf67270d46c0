import InbandTrace.Proofs.Json.Lengths

namespace InbandTrace.Json.Reader

variable {α β σ : Type}

/-- Reading never meets a time that is too long. -/
def Tame (r : Reader α) : Prop := ∀ s, r s ≠ .error .overlong

theorem ofOption_ne_overlong (o : Option α) : ofOption o ≠ .error .overlong := by
  cases o <;> simp [ofOption]

theorem expect_ne_overlong (c : Char) (s : List Char) : expect c s ≠ .error .overlong :=
  ofOption_ne_overlong _

theorem bind_ne_overlong {c : Except Failure α} {f : α → Except Failure β}
    (hc : c ≠ .error .overlong) (hf : ∀ x, f x ≠ .error .overlong) :
    c >>= f ≠ .error .overlong := by
  intro h
  rcases bind_eq_error.mp h with h | ⟨x, -, h⟩
  · exact hc h
  · exact hf x h

theorem exists_of_bind_eq_overlong {c : Except Failure α} {f : α → Except Failure β}
    (hc : c ≠ .error .overlong) (h : c >>= f = .error .overlong) :
    ∃ x, c = .ok x ∧ f x = .error .overlong :=
  (bind_eq_error.mp h).resolve_left hc

section

variable {r : Reader α}

theorem map_eq_overlong_iff {f : α → β} {s : List Char} :
    r.map f s = .error .overlong ↔ r s = .error .overlong := by
  refine ⟨fun h => ?_, fun h => bind_eq_error.mpr (.inl h)⟩
  rcases bind_eq_error.mp h with h | ⟨x, -, h⟩
  · exact h
  · cases h

theorem complete_eq_overlong_iff {finish : α → Option β} {s : List Char} :
    r.complete finish s = .error .overlong ↔ r s = .error .overlong := by
  refine ⟨fun h => ?_, fun h => bind_eq_error.mpr (.inl h)⟩
  rcases bind_eq_error.mp h with h | ⟨x, -, h⟩
  · exact h
  · exact absurd h (bind_ne_overlong (ofOption_ne_overlong _) nofun)

theorem whole_eq_overlong_iff {s : List Char} :
    r.whole s = .error .overlong ↔ r s = .error .overlong := by
  refine ⟨fun h => ?_, fun h => bind_eq_error.mpr (.inl h)⟩
  rcases bind_eq_error.mp h with h | ⟨⟨x, rest⟩, -, h⟩
  · exact h
  · dsimp only at h
    split at h <;> cases h

theorem Tame.map (h : Tame r) (f : α → β) : Tame (r.map f) :=
  fun s hread => h s (map_eq_overlong_iff.mp hread)

theorem Tame.complete (h : Tame r) (finish : α → Option β) : Tame (r.complete finish) :=
  fun s hread => h s (complete_eq_overlong_iff.mp hread)

theorem tame_text : Tame text := fun _ =>
  bind_ne_overlong (ofOption_ne_overlong _) fun _ => bind_ne_overlong (ofOption_ne_overlong _) nofun

theorem tame_parsed (form : List Char → Option α) : Tame (parsed form) := tame_text.complete form

theorem tame_number : Tame number := fun _ =>
  bind_ne_overlong (ofOption_ne_overlong _) fun _ => bind_ne_overlong (ofOption_ne_overlong _) nofun

theorem tame_naturalBelow (bound : Nat) : Tame (naturalBelow bound) := by
  refine fun s => bind_ne_overlong (tame_number s) fun r h => ?_
  split at h
  · split at h <;> cases h
  · cases h

theorem tame_null : Tame null := fun _ => bind_ne_overlong (ofOption_ne_overlong _) nofun

theorem tame_bool : Tame bool := by
  intro s h
  unfold bool at h
  split at h
  · cases h
  · exact bind_ne_overlong (ofOption_ne_overlong _) nofun h

theorem tame_skipped : Tame skipped := fun _ => bind_ne_overlong (ofOption_ne_overlong _) nofun

theorem Tame.optional (h : Tame r) : Tame (Reader.optional r) := by
  intro s hread
  unfold Reader.optional at hread
  split at hread
  · exact tame_null.map _ s hread
  · exact h.map _ s hread

theorem tame_enumeration {variants : List (Variant α)}
    (h : ∀ n r, .holding n r ∈ variants → Tame r) : Tame (enumeration variants) := by
  intro s hread
  have hclose : ∀ r : α × List Char,
      (expect '\x7d' r.2 >>= fun t => pure (r.1, t)) ≠ .error .overlong :=
    fun r => bind_ne_overlong (expect_ne_overlong _ _) nofun
  unfold enumeration at hread
  split at hread
  · refine bind_ne_overlong (tame_text _) (fun k => ?_) hread
    refine bind_ne_overlong (expect_ne_overlong _ _) fun t hread => ?_
    dsimp only at hread
    split at hread
    · exact bind_ne_overlong (tame_null.map _ t) hclose hread
    · rename_i r hfound
      exact bind_ne_overlong (h _ r (List.mem_of_find?_eq_some hfound) t) hclose hread
    · cases hread
  · refine bind_ne_overlong (tame_text _) (fun k hread => ?_) hread
    dsimp only at hread
    split at hread <;> cases hread

end

def Opens (s key rest : List Char) : Prop :=
  ∃ t, text s = .ok (key, t) ∧ expect ':' t = .ok rest

def Continues (close : Char) (s rest : List Char) : Prop :=
  punctuation close s = none ∧ expect ',' s = .ok rest

/-- Reading the members of an object gets to the text of a field, after what has been read into the
record so far. -/
inductive MeetsMember (fields : List (Field σ)) :
    σ → List Char → Field σ → σ → List Char → Prop
  | here {x : σ} {s key t : List Char} {f : Field σ} (opens : Opens s key t)
      (field : fields.find? (fun f => f.name.toList == key) = some f)
      (isSet : f.isSet x = false) : MeetsMember fields x s f x t
  | past {x y z : σ} {s key t t' s' u : List Char} {f : Field σ} (opens : Opens s key t)
      (read : content fields key x t = .ok (y, t')) (continues : Continues '\x7d' t' s')
      (rest : MeetsMember fields y s' f z u) : MeetsMember fields x s f z u

inductive MeetsItem : List (Field σ) → Bool → σ → List Char → Field σ → σ → List Char → Prop
  | here {f : Field σ} {fields : List (Field σ)} {first : Bool} {x : σ} {s t : List Char}
      (opens : separated first s = .ok t) : MeetsItem (f :: fields) first x s f x t
  | past {f g : Field σ} {fields : List (Field σ)} {first : Bool} {x y z : σ}
      {s t s' u : List Char} (opens : separated first s = .ok t) (read : f.read x t = .ok (y, s'))
      (rest : MeetsItem fields false y s' g z u) : MeetsItem (f :: fields) first x s g z u

def Meets (fields : List (Field σ)) (empty : σ) (s : List Char) (f : Field σ) (x : σ)
    (t : List Char) : Prop :=
  (∃ rest, punctuation '[' s = some rest ∧ MeetsItem fields true empty rest f x t) ∨
    ∃ rest, expect '\x7b' s = .ok rest ∧ MeetsMember fields empty rest f x t

section

variable {fields : List (Field σ)} {f : Field σ} {x z : σ} {s u : List Char} {e : Failure}

theorem content_eq_overlong {key t : List Char}
    (h : content fields key x t = .error .overlong) :
    ∃ f, fields.find? (fun f => f.name.toList == key) = some f ∧ f.isSet x = false ∧
      f.read x t = .error .overlong := by
  unfold content at h
  split at h
  · rename_i f hfield
    split at h
    · cases h
    · exact ⟨f, hfield, Bool.eq_false_iff.mpr ‹_›, h⟩
  · exact absurd h (tame_skipped.map _ t)

theorem proceed_eq_overlong {n : Nat} {r : σ × List Char}
    (h : proceed fields n r = .error .overlong) :
    ∃ t, Continues '\x7d' r.2 t ∧ fieldMembers fields n r.1 t = .error .overlong := by
  unfold proceed at h
  split at h
  · cases h
  · obtain ⟨t, hcomma, h⟩ := exists_of_bind_eq_overlong (expect_ne_overlong _ _) h
    exact ⟨t, ⟨‹_›, hcomma⟩, h⟩

theorem exists_meetsMember {n : Nat} (h : fieldMembers fields n x s = .error .overlong) :
    ∃ f z t, MeetsMember fields x s f z t ∧ f.read z t = .error .overlong := by
  induction n generalizing x s with
  | zero => cases h
  | succ n ih =>
      rw [fieldMembers_succ] at h
      obtain ⟨⟨key, s₁⟩, hkey, h⟩ := exists_of_bind_eq_overlong (tame_text s) h
      obtain ⟨t, hcolon, h⟩ := exists_of_bind_eq_overlong (expect_ne_overlong _ _) h
      have hopens : Opens s key t := ⟨s₁, hkey, hcolon⟩
      rcases bind_eq_error.mp h with h | ⟨r, hcontent, h⟩
      · obtain ⟨f, hfield, hset, hread⟩ := content_eq_overlong h
        exact ⟨f, x, t, .here hopens hfield hset, hread⟩
      · obtain ⟨s', hcontinues, hrest⟩ := proceed_eq_overlong h
        obtain ⟨f, z, u, hmeets, hread⟩ := ih hrest
        exact ⟨f, z, u, .past hopens hcontent hcontinues hmeets, hread⟩

theorem fieldMembers_of_opens {key t : List Char} (h : Opens s key t) (n : Nat) :
    fieldMembers fields (n + 1) x s = content fields key x t >>= proceed fields n := by
  obtain ⟨s₁, hkey, hcolon⟩ := h
  rw [fieldMembers_succ, hkey, ok_bind, hcolon, ok_bind]

theorem length_of_opens {key t : List Char} (h : Opens s key t) : t.length < s.length := by
  obtain ⟨s₁, hkey, hcolon⟩ := h
  have := length_text hkey
  have := length_expect hcolon
  omega

theorem fieldMembers_of_meets (hfields : ∀ f ∈ fields, ∀ x, Shrinks (f.read x))
    (h : MeetsMember fields x s f z u) (hread : f.read z u = .error e) {n : Nat}
    (hn : s.length ≤ n) : fieldMembers fields n x s = .error e := by
  -- Along what has been read: every member takes a quote, a colon and a comma off the text.
  induction h generalizing n with
  | here hopens hfield hset =>
      have := length_of_opens hopens
      obtain ⟨n, rfl⟩ := Nat.exists_eq_succ_of_ne_zero (show n ≠ 0 by omega)
      rw [Nat.succ_eq_add_one, fieldMembers_of_opens hopens, content_eq hfield hset, hread]
      rfl
  | @past x y z s key t t' s' u f hopens hcontent hcontinues _ ih =>
      have := length_of_opens hopens
      have := shrinks_content hfields key x hcontent
      have := length_expect hcontinues.2
      obtain ⟨n, rfl⟩ := Nat.exists_eq_succ_of_ne_zero (show n ≠ 0 by omega)
      rw [Nat.succ_eq_add_one, fieldMembers_of_opens hopens, hcontent, ok_bind, proceed]
      simp only [hcontinues.1, hcontinues.2, ok_bind]
      exact ih hread (by omega)

theorem fieldItems_eq_overlong_iff {first : Bool} :
    fieldItems fields first x s = .error .overlong ↔
      ∃ f z t, MeetsItem fields first x s f z t ∧ f.read z t = .error .overlong := by
  constructor
  · intro h
    induction fields generalizing first x s with
    | nil => exact absurd h (bind_ne_overlong (expect_ne_overlong _ _) nofun)
    | cons f fields ih =>
        rw [fieldItems_cons] at h
        have hseparated : separated first s ≠ .error .overlong := by
          cases first with
          | true => nofun
          | false => exact expect_ne_overlong _ _
        obtain ⟨t, hopens, h⟩ := exists_of_bind_eq_overlong hseparated h
        rcases bind_eq_error.mp h with h | ⟨⟨y, s'⟩, hread, h⟩
        · exact ⟨f, x, t, .here hopens, h⟩
        · obtain ⟨g, z, u, hmeets, hfault⟩ := ih h
          exact ⟨g, z, u, .past hopens hread hmeets, hfault⟩
  · rintro ⟨f, z, t, hmeets, hfault⟩
    induction hmeets with
    | here hopens => rw [fieldItems_cons, hopens, ok_bind, hfault, error_bind]
    | past hopens hread _ ih => rw [fieldItems_cons, hopens, ok_bind, hread, ok_bind, ih hfault]

theorem punctuation_of_other {c d : Char} {rest : List Char} (h : punctuation c s = some rest)
    (hne : c ≠ d) : punctuation d s = none := by
  unfold punctuation at h ⊢
  cases hblanks : skipBlanks s with
  | nil => rfl
  | cons b t =>
      rw [hblanks, literal] at h
      split at h
      · rename_i hb
        exact if_neg fun hd => hne (hb.symm.trans hd)
      · cases h

theorem expect_of_other {c d : Char} {rest : List Char} (h : punctuation c s = some rest)
    (hne : c ≠ d) : expect d s = .error .malformed := by
  rw [expect, punctuation_of_other h hne]
  rfl

theorem MeetsMember.not_closed (h : MeetsMember fields x s f z u) :
    punctuation '\x7d' s = none := by
  have hopens : ∃ key t, Opens s key t := by
    cases h with
    | here hopens => exact ⟨_, _, hopens⟩
    | past hopens => exact ⟨_, _, hopens⟩
  obtain ⟨key, t, s₁, htext, -⟩ := hopens
  obtain ⟨r, hquoted, -⟩ := bind_eq_ok.mp htext
  obtain ⟨s₂, hquote, -⟩ := Option.bind_eq_some_iff.mp (ofOption_eq_ok.mp hquoted)
  exact punctuation_of_other hquote (by decide)

theorem record_eq_overlong_iff (hfields : ∀ f ∈ fields, ∀ x, Shrinks (f.read x)) :
    record fields x s = .error .overlong ↔
      ∃ f z t, Meets fields x s f z t ∧ f.read z t = .error .overlong := by
  cases hopen : punctuation '[' s with
  | some rest =>
      have hitems : record fields x s = fieldItems fields true x rest := by
        simp only [record, hopen]
      rw [hitems, fieldItems_eq_overlong_iff]
      constructor
      · rintro ⟨f, z, t, hmeets, hfault⟩
        exact ⟨f, z, t, .inl ⟨rest, hopen, hmeets⟩, hfault⟩
      · rintro ⟨f, z, t, ⟨rest', hopen', hmeets⟩ | ⟨rest', hopen', -⟩, hfault⟩
        · obtain rfl := Option.some.inj (hopen.symm.trans hopen')
          exact ⟨f, z, t, hmeets, hfault⟩
        · rw [expect_of_other hopen (by decide)] at hopen'
          cases hopen'
  | none =>
      simp only [record, hopen]
      constructor
      · intro h
        obtain ⟨rest, hbrace, h⟩ := exists_of_bind_eq_overlong (expect_ne_overlong _ _) h
        split at h
        · cases h
        · obtain ⟨f, z, t, hmeets, hfault⟩ := exists_meetsMember h
          exact ⟨f, z, t, .inr ⟨rest, hbrace, hmeets⟩, hfault⟩
      · rintro ⟨f, z, t, ⟨rest, hopen', -⟩ | ⟨rest, hbrace, hmeets⟩, hfault⟩
        · cases hopen.symm.trans hopen'
        · simp only [hbrace, ok_bind, hmeets.not_closed]
          exact fieldMembers_of_meets hfields hmeets hfault (Nat.le_refl _)

theorem MeetsItem.mem {first : Bool} (h : MeetsItem fields first x s f z u) : f ∈ fields := by
  induction h with
  | here => exact List.mem_cons_self
  | past _ _ _ ih => exact List.mem_cons_of_mem _ ih

theorem MeetsMember.mem (h : MeetsMember fields x s f z u) : f ∈ fields := by
  induction h with
  | here _ hfield => exact List.mem_of_find?_eq_some hfield
  | past _ _ _ _ ih => exact ih

theorem Meets.mem (h : Meets fields x s f z u) : f ∈ fields := by
  rcases h with ⟨rest, -, h⟩ | ⟨rest, -, h⟩
  · exact h.mem
  · exact h.mem

theorem record_of_not_open (hbracket : punctuation '[' s = none)
    (hbrace : punctuation '\x7b' s = none) : record fields x s = .error .malformed := by
  simp only [record, hbracket, expect, hbrace, ofOption, error_bind]

end

inductive MeetsEntry (r : Reader α) : List Char → List Char → Prop
  | here (s : List Char) : MeetsEntry r s s
  | past {x : α} {s t s' u : List Char} (read : r s = .ok (x, t)) (continues : Continues ']' t s')
      (rest : MeetsEntry r s' u) : MeetsEntry r s u

section

variable {r : Reader α} {s u : List Char} {e : Failure}

theorem exists_meetsEntry {n : Nat} (h : items r n s = .error .overlong) :
    ∃ t, MeetsEntry r s t ∧ r t = .error .overlong := by
  induction n generalizing s with
  | zero => cases h
  | succ n ih =>
      rcases bind_eq_error.mp h with h | ⟨⟨x, t⟩, hread, h⟩
      · exact ⟨s, .here s, h⟩
      dsimp only at h
      split at h
      · cases h
      rename_i hclose
      obtain ⟨s', hcomma, h⟩ := exists_of_bind_eq_overlong (expect_ne_overlong _ _) h
      rcases bind_eq_error.mp h with h | ⟨r, -, h⟩
      · obtain ⟨u, hmeets, hfault⟩ := ih h
        exact ⟨u, .past hread ⟨hclose, hcomma⟩ hmeets, hfault⟩
      · cases h

theorem items_of_meets (hr : Shrinks r) (h : MeetsEntry r s u) (hfault : r u = .error e)
    (hne : u ≠ []) {n : Nat} (hn : s.length ≤ n) : items r n s = .error e := by
  induction h generalizing n with
  | here s =>
      have := List.length_pos_of_ne_nil hne
      obtain ⟨n, rfl⟩ := Nat.exists_eq_succ_of_ne_zero (show n ≠ 0 by omega)
      rw [Nat.succ_eq_add_one, items, hfault, error_bind]
  | past hread hcontinues _ ih =>
      have := hr hread
      have := length_expect hcontinues.2
      obtain ⟨n, rfl⟩ := Nat.exists_eq_succ_of_ne_zero (show n ≠ 0 by omega)
      have hrest := ih hfault hne (n := n) (by omega)
      rw [Nat.succ_eq_add_one, items, hread, ok_bind]
      simp only [hcontinues.1, hcontinues.2, ok_bind, hrest, error_bind]

theorem list_eq_overlong_iff (hr : Shrinks r) (hnil : r [] = .error .malformed)
    (hclose : ∀ s, punctuation ']' s ≠ none → r s = .error .malformed) :
    list r s = .error .overlong ↔
      ∃ rest t, expect '[' s = .ok rest ∧ MeetsEntry r rest t ∧ r t = .error .overlong := by
  constructor
  · intro h
    obtain ⟨rest, hopen, h⟩ := exists_of_bind_eq_overlong (expect_ne_overlong _ _) h
    split at h
    · cases h
    · obtain ⟨t, hmeets, hfault⟩ := exists_meetsEntry h
      exact ⟨rest, t, hopen, hmeets, hfault⟩
  · rintro ⟨rest, t, hopen, hmeets, hfault⟩
    have hne : t ≠ [] := by
      rintro rfl
      rw [hnil] at hfault
      cases hfault
    have hitem : punctuation ']' rest = none := by
      by_contra hclosed
      have hmalformed := hclose rest hclosed
      cases hmeets with
      | here => cases hmalformed.symm.trans hfault
      | past hread => cases hmalformed.symm.trans hread
    simp only [list, hopen, ok_bind, hitem]
    exact items_of_meets hr hmeets hfault hne (Nat.le_refl _)

end

end InbandTrace.Json.Reader
