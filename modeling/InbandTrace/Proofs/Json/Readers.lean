import InbandTrace.Json.Hop
import InbandTrace.Proofs.Json.RoundTrip
import InbandTrace.Proofs.Net.Text

namespace InbandTrace.Json.Reader

variable {α β σ : Type}

theorem ok_bind (x : α) (f : α → Except Failure β) : (Except.ok x >>= f) = f x := rfl

theorem error_bind (e : Failure) (f : α → Except Failure β) :
    (Except.error e >>= f) = .error e := rfl

theorem pure_ok (x : α) : (pure x : Except Failure α) = .ok x := rfl

theorem bind_eq_ok {c : Except Failure α} {f : α → Except Failure β} {y : β} :
    c >>= f = .ok y ↔ ∃ x, c = .ok x ∧ f x = .ok y := by
  cases c <;> simp [ok_bind, error_bind]

theorem bind_eq_error {c : Except Failure α} {f : α → Except Failure β} {e : Failure} :
    c >>= f = .error e ↔ c = .error e ∨ ∃ x, c = .ok x ∧ f x = .error e := by
  cases c <;> simp [ok_bind, error_bind]

theorem ofOption_eq_ok {o : Option α} {x : α} : ofOption o = .ok x ↔ o = some x := by
  cases o <;> simp [ofOption]

theorem map_eq_ok {r : Reader α} {f : α → β} {s rest : List Char} {y : β} :
    r.map f s = .ok (y, rest) ↔ ∃ x, r s = .ok (x, rest) ∧ f x = y := by
  constructor
  · intro h
    obtain ⟨⟨x, t⟩, hread, heq⟩ := bind_eq_ok.mp h
    cases heq
    exact ⟨x, hread, rfl⟩
  · rintro ⟨x, hread, rfl⟩
    exact bind_eq_ok.mpr ⟨_, hread, rfl⟩

def Yields (r : Reader α) (s : List Char) (out : Except Failure α) : Prop :=
  ∀ rest, Stops rest → r (s ++ rest) = out.map fun x => (x, rest)

section

variable {r : Reader α} {s : List Char} {out : Except Failure α}

theorem Yields.map (h : Yields r s out) (f : α → β) : Yields (r.map f) s (out.map f) := by
  intro rest hrest
  rw [Reader.map, h rest hrest]
  cases out <;> rfl

theorem Yields.set {x : α} (h : Yields r s (.ok x)) (f : α → β) :
    Yields (r.map f) s (.ok (f x)) := h.map f

theorem Yields.complete (h : Yields r s out) (finish : α → Option β) :
    Yields (r.complete finish) s (out.bind fun x => ofOption (finish x)) := by
  intro rest hrest
  rw [Reader.complete, h rest hrest]
  cases out with
  | error e => rfl
  | ok x => cases hfinish : finish x <;> simp [Except.map, Except.bind, ok_bind, ofOption, hfinish]

theorem Yields.whole (h : Yields r s out) : r.whole s = out := by
  have hread := h [] stops_nil
  rw [List.append_nil] at hread
  rw [Reader.whole, hread]
  cases out <;> rfl

theorem yields_optional_none : Yields (optional r) "null".toList (.ok none) :=
  fun _ _ => rfl

theorem Yields.optional (h : Yields r s out)
    (hhead : ∃ c t, s = c :: t ∧ isBlank c = false ∧ c ≠ 'n') :
    Yields (Reader.optional r) s (out.map some) := by
  obtain ⟨c, t, rfl, hblank, hn⟩ := hhead
  intro rest hrest
  have hread : Reader.optional r (c :: t ++ rest) = (r.map some) (c :: t ++ rest) := by
    unfold Reader.optional
    rw [List.cons_append, skipBlanks_cons hblank]
    split
    · rename_i heq
      exact absurd (List.cons.inj heq).1 hn
    · rfl
  rw [hread, h.map some rest hrest]

end

theorem yields_text (s : List Char) : Yields text (quote s) (.ok s) := by
  intro rest _
  simp [text, quoted_quote, ofOption, ok_bind, decode?_pieces, Except.map]

theorem yields_parsed {form : List Char → Option α} {s : List Char} {x : α}
    (h : form s = some x) : Yields (parsed form) (quote s) (.ok x) := by
  intro rest hrest
  rw [parsed, yields_text s rest hrest]
  simp [Except.map, h, ofOption, ok_bind]

theorem yields_ip (x : Net.Ip) : Yields ip x.toJson.text (.ok x) := yields_parsed x.ofText?_text

theorem yields_socket (x : Net.Socket) : Yields socket x.toJson.text (.ok x) :=
  yields_parsed x.ofText?_text

theorem yields_number {x : Number} (h : x.Regular) : Yields number x.text (.ok x.reread) := by
  obtain ⟨y, hspells, hvalue⟩ := Number.exists_numeral h
  obtain ⟨c, s, htext, hnumeric⟩ := Number.exists_head h
  intro rest hrest
  have hread := hspells rest hrest
  rw [htext, List.cons_append] at hread ⊢
  rw [number, skipBlanks_cons (isBlank_of_isNumeric hnumeric).1, hread]
  simp [ofOption, ok_bind, hvalue, Except.map]

theorem yields_float {x : Binary64} (h : (Number.float x).Regular) :
    Yields float (Number.float x).text (.ok (Number.float x).reread.toBinary64) :=
  (yields_number h).map _

theorem yields_natural {n bound : Nat} (h : n < bound) (hbound : bound ≤ 2 ^ 64) :
    Yields (naturalBelow bound) (Value.ofNat n).text (.ok n) := by
  have hn : n.toUInt64.toNat = n := Nat.mod_eq_of_lt (Nat.lt_of_lt_of_le h hbound)
  intro rest hrest
  have hread := yields_number (x := .natural n.toUInt64) trivial rest hrest
  rw [Number.reread_natural] at hread
  rw [naturalBelow, Value.ofNat, Value.text, hread]
  simp [Except.map, ok_bind, pure_ok, hn, h]

theorem yields_uint8 (n : UInt8) : Yields uint8 (Value.ofNat n.toNat).text (.ok n) := by
  have h := (yields_natural n.toNat_lt (by decide)).map Nat.toUInt8
  rwa [Except.map, show n.toNat.toUInt8 = n from UInt8.ofNat_toNat] at h

theorem yields_uint16 (n : UInt16) : Yields uint16 (Value.ofNat n.toNat).text (.ok n) := by
  have h := (yields_natural n.toNat_lt (by decide)).map Nat.toUInt16
  rwa [Except.map, show n.toNat.toUInt16 = n from UInt16.ofNat_toNat] at h

theorem yields_enumeration {variants : List (Variant α)} {name : String} {n : String} {x : α}
    (h : variants.find? (fun v => v.name.toList == name.toList) = some (.bare n x)) :
    Yields (enumeration variants) (Value.ofString name).text (.ok x) := by
  intro rest hrest
  have hopen : punctuation '\x7b' ((Value.ofString name).text ++ rest) = none :=
    punctuation_of_ne (show isBlank '"' = false from rfl) (by decide)
  have hname := yields_text name.toList rest hrest
  rw [enumeration, hopen]
  dsimp only
  rw [Value.ofString, Value.text, hname]
  simp [Except.map, ok_bind, pure_ok, h]

theorem expect_self {c : Char} (h : isBlank c = false) (s : List Char) :
    expect c (c :: s) = .ok s := by
  rw [expect, punctuation_self h]
  rfl

theorem text_key (key s : List Char) : text (quote key ++ ':' :: s) = .ok (key, ':' :: s) :=
  yields_text key _ (stops_cons s rfl (by decide))

def separated (first : Bool) (s : List Char) : Except Failure (List Char) :=
  if first then .ok s else expect ',' s

theorem fieldItems_cons (f : Field σ) (fs : List (Field σ)) (first : Bool) (x : σ)
    (s : List Char) :
    fieldItems (f :: fs) first x s = separated first s >>= fun t => f.read x t >>= fun r =>
      fieldItems fs false r.1 r.2 := by
  cases first <;> rfl

def content (fields : List (Field σ)) (key : List Char) (x : σ) : Reader σ := fun s =>
  match fields.find? fun f => f.name.toList == key with
  | some f => if f.isSet x then .error .malformed else f.read x s
  | none => (skipped.map fun _ => x) s

def proceed (fields : List (Field σ)) (n : Nat) (r : σ × List Char) :
    Except Failure (σ × List Char) :=
  match punctuation '\x7d' r.2 with
  | some rest => .ok (r.1, rest)
  | none => expect ',' r.2 >>= fieldMembers fields n r.1

theorem fieldMembers_succ (fields : List (Field σ)) (n : Nat) (x : σ) (s : List Char) :
    fieldMembers fields (n + 1) x s = text s >>= fun k => expect ':' k.2 >>= fun t =>
      content fields k.1 x t >>= proceed fields n := by
  rw [fieldMembers]
  refine congrArg (text s >>= ·) (funext fun k => ?_)
  refine congrArg (expect ':' k.2 >>= ·) (funext fun t => ?_)
  dsimp only [content]
  cases fields.find? fun f => f.name.toList == k.1 with
  | none => rfl
  | some f =>
      dsimp only
      cases f.isSet x <;> rfl

section

variable {fields : List (Field σ)} {f : Field σ} {key : List Char} {x : σ} {v : List Char}
  {out : Except Failure σ}

theorem content_eq (hfield : fields.find? (fun f => f.name.toList == key) = some f)
    (hset : f.isSet x = false) : content fields key x = f.read x := by
  funext s
  simp [content, hfield, hset]

theorem fieldMembers_last (hfield : fields.find? (fun f => f.name.toList == key) = some f)
    (hset : f.isSet x = false) (hread : Yields (f.read x) v out) (n : Nat) (rest : List Char) :
    fieldMembers fields (n + 1) x (quote key ++ ':' :: (v ++ '\x7d' :: rest)) =
      out.map fun y => (y, rest) := by
  have hvalue := hread ('\x7d' :: rest) (stops_cons rest rfl (by decide))
  rw [fieldMembers_succ, text_key, ok_bind, expect_self rfl, ok_bind, content_eq hfield hset,
    hvalue]
  cases out with
  | error e => rfl
  | ok y => simp [Except.map, ok_bind, proceed, punctuation_self (c := '\x7d') rfl]

theorem fieldMembers_more (hfield : fields.find? (fun f => f.name.toList == key) = some f)
    (hset : f.isSet x = false) (hread : Yields (f.read x) v out) (n : Nat) (s : List Char) :
    fieldMembers fields (n + 1) x (quote key ++ ':' :: (v ++ ',' :: s)) =
      out.bind fun y => fieldMembers fields n y s := by
  have hvalue := hread (',' :: s) (Value.stops_comma s)
  rw [fieldMembers_succ, text_key, ok_bind, expect_self rfl, ok_bind, content_eq hfield hset,
    hvalue]
  cases out with
  | error e => rfl
  | ok y =>
      simp [Except.map, Except.bind, ok_bind, proceed,
        punctuation_of_ne (c := '\x7d') (d := ',') rfl, expect_self (c := ',') rfl]

inductive Fills (fields : List (Field σ)) :
    σ → List (List Char × Value) → Except Failure σ → Prop
  | nil (x : σ) : Fills fields x [] (.ok x)
  | cons {f : Field σ} {key : List Char} {v : Value} {x y : σ}
      {members : List (List Char × Value)} {out : Except Failure σ}
      (field : fields.find? (fun f => f.name.toList == key) = some f)
      (isSet : f.isSet x = false) (read : Yields (f.read x) v.text (.ok y))
      (rest : Fills fields y members out) : Fills fields x ((key, v) :: members) out
  | fault {f : Field σ} {key : List Char} {v : Value} {x : σ} {e : Failure}
      (members : List (List Char × Value))
      (field : fields.find? (fun f => f.name.toList == key) = some f)
      (isSet : f.isSet x = false) (read : Yields (f.read x) v.text (.error e)) :
      Fills fields x ((key, v) :: members) (.error e)

open Value (membersText)

theorem fieldMembers_membersText {members : List (List Char × Value)}
    (h : Fills fields x members out) {n : Nat} (hn : members.length ≤ n) (hne : members ≠ [])
    (rest : List Char) :
    fieldMembers fields n x (membersText members ++ '\x7d' :: rest) =
      out.map fun y => (y, rest) := by
  induction h generalizing n with
  | nil x => exact absurd rfl hne
  | @cons f key v x y members out hfield hset hread hrest ih =>
      obtain ⟨n, rfl⟩ := Nat.exists_eq_succ_of_ne_zero (Nat.ne_zero_of_lt hn)
      cases members with
      | nil =>
          cases hrest
          rw [membersText, List.append_assoc, List.cons_append]
          exact fieldMembers_last hfield hset hread n rest
      | cons m members =>
          have hmore := ih (Nat.le_of_succ_le_succ hn) (List.cons_ne_nil _ _)
          have hstep := fieldMembers_more hfield hset hread n
            (membersText (m :: members) ++ '\x7d' :: rest)
          rw [membersText, List.append_assoc, List.cons_append, List.append_assoc,
            List.cons_append, hstep]
          exact hmore
  | @fault f key v x e members hfield hset hread =>
      obtain ⟨n, rfl⟩ := Nat.exists_eq_succ_of_ne_zero (Nat.ne_zero_of_lt hn)
      cases members with
      | nil =>
          rw [membersText, List.append_assoc, List.cons_append]
          exact fieldMembers_last hfield hset hread n rest
      | cons m members =>
          have hstep := fieldMembers_more hfield hset hread n
            (membersText (m :: members) ++ '\x7d' :: rest)
          rw [membersText, List.append_assoc, List.cons_append, List.append_assoc,
            List.cons_append, hstep]
          rfl

theorem length_le_membersText (members : List (List Char × Value)) :
    members.length ≤ (membersText members).length := by
  induction members with
  | nil => exact Nat.le_refl 0
  | cons m members ih =>
      cases members with
      | nil => simp [membersText, quote]
      | cons w members =>
          simp only [membersText, List.length_cons, List.length_append] at ih ⊢
          omega

theorem Fills.yields {members : List (List Char × Value)} (h : Fills fields x members out) :
    Yields (record fields x) (Value.object members).text out := by
  intro rest _
  have harray := fun s => punctuation_of_ne (c := '[') (d := '\x7b') (s := s) rfl (by decide)
  rw [Value.text, List.cons_append, List.cons_append, List.append_assoc, record, harray]
  dsimp only
  rw [expect_self rfl, ok_bind]
  by_cases hne : members = []
  · subst hne
    cases h
    rfl
  · obtain ⟨s, hs⟩ := Value.exists_head_membersText hne
    have hclose := punctuation_of_ne (c := '\x7d') (d := '"') (s := s ++ ['\x7d'] ++ rest) rfl
      (by decide)
    have hlength := length_le_membersText members
    have hread := fieldMembers_membersText h
      (n := (membersText members ++ (['\x7d'] ++ rest)).length)
      (by rw [List.length_append]; omega) hne rest
    rw [hs, List.cons_append, ← List.append_assoc, hclose]
    dsimp only
    rw [List.append_assoc, ← List.cons_append, ← hs]
    exact hread

end

section

variable {r : Reader α} {f : α → Value} {xs : List α}

open Value (itemsText)

theorem items_itemsText (hne : xs ≠ []) (h : ∀ x ∈ xs, Yields r (f x).text (.ok x)) {n : Nat}
    (hn : xs.length ≤ n) (rest : List Char) :
    items r n (itemsText (xs.map f) ++ ']' :: rest) = .ok (xs, rest) := by
  induction xs generalizing n with
  | nil => exact absurd rfl hne
  | cons x xs ih =>
      obtain ⟨n, rfl⟩ := Nat.exists_eq_succ_of_ne_zero (Nat.ne_zero_of_lt hn)
      have hx := h x List.mem_cons_self
      cases xs with
      | nil =>
          have hread := hx (']' :: rest) (stops_cons rest rfl (by decide))
          rw [List.map_cons, List.map_nil, itemsText, items, hread]
          simp [Except.map, ok_bind, pure_ok, punctuation_self (c := ']') rfl]
      | cons y ys =>
          have hmore := ih (List.cons_ne_nil _ _) (fun z hz => h z (List.mem_cons_of_mem _ hz))
            (Nat.le_of_succ_le_succ hn)
          have hread := hx (',' :: (itemsText ((y :: ys).map f) ++ ']' :: rest))
            (Value.stops_comma _)
          have htext : itemsText ((x :: y :: ys).map f) ++ ']' :: rest =
              (f x).text ++ ',' :: (itemsText ((y :: ys).map f) ++ ']' :: rest) := by
            rw [List.map_cons, List.map_cons, itemsText, List.append_assoc, List.cons_append]
          rw [htext, items, hread]
          simp only [Except.map, ok_bind, punctuation_of_ne (c := ']') (d := ',') rfl (by decide),
            expect_self (c := ',') rfl, hmore, pure_ok]

theorem length_le_itemsText (vs : List Value) : vs.length ≤ (itemsText vs).length + 1 := by
  induction vs with
  | nil => exact Nat.zero_le _
  | cons v vs ih =>
      cases vs with
      | nil => exact Nat.succ_le_succ (Nat.zero_le _)
      | cons w vs =>
          simp only [itemsText, List.length_append, List.length_cons] at ih ⊢
          omega

theorem Yields.list (h : ∀ x ∈ xs, Yields r (f x).text (.ok x))
    (hhead : ∀ x ∈ xs, ∃ c s, (f x).text = c :: s ∧ isBlank c = false ∧ c ≠ ']') :
    Yields (Reader.list r) (Value.array (xs.map f)).text (.ok xs) := by
  intro rest _
  rw [Value.text, List.append_assoc, List.cons_append, Reader.list, expect_self rfl, ok_bind]
  cases xs with
  | nil => rfl
  | cons x xs =>
      have hlength := length_le_itemsText ((x :: xs).map f)
      have hread := items_itemsText (List.cons_ne_nil _ _) h
        (n := (itemsText ((x :: xs).map f) ++ ([']'] ++ rest)).length)
        (by
          rw [List.length_map] at hlength
          rw [List.length_append, List.length_append, List.length_singleton]
          omega) rest
      obtain ⟨c, s, htext, hblank, hc⟩ := hhead x List.mem_cons_self
      have hclose : punctuation ']' (itemsText ((x :: xs).map f) ++ ([']'] ++ rest)) = none := by
        cases xs with
        | nil =>
            rw [List.map_cons, List.map_nil, itemsText, htext]
            exact punctuation_of_ne hblank hc
        | cons y ys =>
            rw [List.map_cons, List.map_cons, itemsText, htext]
            exact punctuation_of_ne hblank hc
      rw [hclose]
      exact hread

end

end InbandTrace.Json.Reader
