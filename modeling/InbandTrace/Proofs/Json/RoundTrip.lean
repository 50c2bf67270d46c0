import InbandTrace.Proofs.Json.Normal
import InbandTrace.Proofs.Json.Reread
import InbandTrace.Proofs.Json.Strings

namespace InbandTrace.Json

open Text

section

variable {c d : Char} {s : List Char}

theorem skipBlanks_cons (h : isBlank c = false) : skipBlanks (c :: s) = c :: s := by
  simp [skipBlanks, h]

theorem punctuation_self (h : isBlank c = false) : punctuation c (c :: s) = some s := by
  simp [punctuation, skipBlanks_cons h, literal]

theorem punctuation_of_ne (h : isBlank d = false) (hne : d ≠ c) : punctuation c (d :: s) = none := by
  simp [punctuation, skipBlanks_cons h, literal, hne]

theorem quoted_quote (s rest : List Char) : quoted (quote s ++ rest) = some (s.map piece, rest) := by
  have hopen : punctuation '"' (quote s ++ rest) = some (s.flatMap escape ++ '"' :: rest) := by
    rw [quote, List.append_assoc, List.cons_append]
    exact punctuation_self rfl
  rw [quoted, hopen]
  exact pieces_body rest s

end

def isNumeric (c : Char) : Bool := c.isDigit || c == '-'

theorem isBlank_of_isNumeric {c : Char} (h : isNumeric c = true) :
    isBlank c = false ∧ c ∉ ['n', 't', 'f', '"', '[', ']', '\x7b', '\x7d'] := by
  constructor
  · by_contra hblank
    simp only [isBlank, Bool.not_eq_false, Bool.or_eq_true, beq_iff_eq] at hblank
    rcases hblank with ((rfl | rfl) | rfl) | rfl <;> cases h
  · intro hmem
    simp only [List.mem_cons, List.not_mem_nil, or_false] at hmem
    rcases hmem with rfl | rfl | rfl | rfl | rfl | rfl | rfl | rfl <;> cases h

theorem exists_head_of_numeral {s : List Char} {r : Numeral × List Char} (h : numeral s = some r) :
    ∃ c t, s = c :: t ∧ isNumeric c = true := by
  cases s with
  | nil => cases h
  | cons c t =>
      refine ⟨c, t, rfl, ?_⟩
      by_contra hnumeric
      simp only [isNumeric, Bool.or_eq_true, beq_iff_eq, not_or, Bool.not_eq_true] at hnumeric
      obtain ⟨hdigit, hminus⟩ := hnumeric
      have hspan : spanDigits decimalDigit? (c :: t) = ([], c :: t) := by
        simp [spanDigits, decimalDigit?, hdigit]
      rw [numeral_of_head? (by simpa using hminus), unsigned, wholePart, hspan] at h
      cases h

theorem Number.exists_head {x : Number} (h : x.Regular) :
    ∃ c s, x.text = c :: s ∧ isNumeric c = true := by
  obtain ⟨y, hspells, -⟩ := exists_numeral h
  have hread := hspells [] stops_nil
  rw [List.append_nil] at hread
  exact exists_head_of_numeral hread

namespace Value

/-- The text of a value is read as the tree, whatever follows, and the tree stands for the value but
for its numbers, unless it is too deep. -/
structure Readable (v : Value) (raw : Raw) : Prop where
  scans : ∀ n rest, v.text.length < n → Stops rest →
    rawValue n (v.text ++ rest) = some (raw, rest)
  stands : ∀ depth, raw.value? depth =
    if v.nesting ≤ depth then some (v.mapNumbers Number.reread) else none

theorem readable_null : Readable .null .null := by
  refine ⟨fun n rest hn _ => ?_, fun depth => ?_⟩
  · obtain ⟨n, rfl⟩ := Nat.exists_eq_succ_of_ne_zero (Nat.ne_zero_of_lt hn)
    rfl
  · simp [Raw.value?, nesting, mapNumbers]

theorem readable_bool (b : Bool) : Readable (.bool b) (.bool b) := by
  refine ⟨fun n rest hn _ => ?_, fun depth => ?_⟩
  · obtain ⟨n, rfl⟩ := Nat.exists_eq_succ_of_ne_zero (Nat.ne_zero_of_lt hn)
    cases b <;> rfl
  · simp [Raw.value?, nesting, mapNumbers]

theorem readable_string (s : List Char) : Readable (.string s) (.string (s.map piece)) := by
  refine ⟨fun n rest hn _ => ?_, fun depth => ?_⟩
  · obtain ⟨n, rfl⟩ := Nat.exists_eq_succ_of_ne_zero (Nat.ne_zero_of_lt hn)
    have hbody : rawValue (n + 1) ('"' :: (s.flatMap escape ++ '"' :: rest)) =
        (pieces (s.flatMap escape ++ '"' :: rest)).map fun r => (.string r.1, r.2) := rfl
    rw [text, quote, List.append_assoc, List.cons_append, List.singleton_append, hbody,
      pieces_body]
    rfl
  · simp [Raw.value?, nesting, mapNumbers, decode?_pieces]

theorem exists_readable_number {x : Number} (h : x.Regular) :
    ∃ y, Readable (.number x) (.number y) := by
  obtain ⟨y, hspells, hvalue⟩ := Number.exists_numeral h
  refine ⟨y, fun n rest hn hrest => ?_, fun depth => ?_⟩
  · obtain ⟨n, rfl⟩ := Nat.exists_eq_succ_of_ne_zero (Nat.ne_zero_of_lt hn)
    obtain ⟨c, s, htext, hnumeric⟩ := Number.exists_head h
    obtain ⟨hblank, hother⟩ := isBlank_of_isNumeric hnumeric
    have hread := hspells rest hrest
    rw [htext] at hread
    simp only [List.mem_cons, List.not_mem_nil, or_false, not_or] at hother
    rw [text, htext, rawValue, List.cons_append, skipBlanks_cons hblank]
    simp only [hother, if_false]
    rw [← List.cons_append, hread]
    rfl
  · simp [Raw.value?, nesting, mapNumbers, hvalue]

theorem exists_head {v : Value} (h : ∀ x ∈ v.numbers, x.Regular) :
    ∃ c s, v.text = c :: s ∧ isBlank c = false ∧ c ≠ ']' := by
  cases v with
  | null => exact ⟨_, _, rfl, rfl, by decide⟩
  | bool b => cases b <;> exact ⟨_, _, rfl, rfl, by decide⟩
  | string s => exact ⟨_, _, rfl, rfl, by decide⟩
  | array items => exact ⟨_, _, rfl, rfl, by decide⟩
  | object members => exact ⟨_, _, rfl, rfl, by decide⟩
  | number x =>
      obtain ⟨c, s, htext, hnumeric⟩ := Number.exists_head (h x (by simp [numbers]))
      obtain ⟨hblank, hother⟩ := isBlank_of_isNumeric hnumeric
      exact ⟨c, s, htext, hblank, fun hc => hother (by simp [hc])⟩

theorem exists_head_items {items : List Value} (hne : items ≠ [])
    (h : ∀ x ∈ (array items).numbers, x.Regular) :
    ∃ c s, itemsText items = c :: s ∧ isBlank c = false ∧ c ≠ ']' := by
  cases items with
  | nil => exact absurd rfl hne
  | cons v items =>
      rw [numbers_array, List.flatMap_cons] at h
      obtain ⟨c, s, htext, hhead⟩ := exists_head fun x hx => h x (List.mem_append_left _ hx)
      cases items with
      | nil => exact ⟨c, s, htext, hhead⟩
      | cons w items => exact ⟨c, _, by rw [itemsText, htext, List.cons_append], hhead⟩

theorem stops_comma (rest : List Char) : Stops (',' :: rest) := stops_cons rest rfl (by decide)

theorem exists_items {items : List Value} (hne : items ≠ [])
    (h : ∀ v ∈ items, ∃ raw, Readable v raw) :
    ∃ raws,
      (∀ n rest, (itemsText items).length + 1 < n →
        rawItems n (itemsText items ++ ']' :: rest) = some (raws, rest)) ∧
      ∀ depth, Raw.items? depth raws = if itemsNesting items ≤ depth then
        some (items.map (mapNumbers Number.reread)) else none := by
  induction items with
  | nil => exact absurd rfl hne
  | cons v items ih =>
      obtain ⟨raw, hscans, hstands⟩ := h v List.mem_cons_self
      cases items with
      | nil =>
          refine ⟨[raw], fun n rest hn => ?_, fun depth => ?_⟩
          · obtain ⟨n, rfl⟩ := Nat.exists_eq_succ_of_ne_zero (Nat.ne_zero_of_lt hn)
            rw [itemsText] at hn ⊢
            rw [rawItems, hscans n _ (by omega) (stops_cons rest rfl (by decide))]
            simp [punctuation_self (show isBlank ']' = false from rfl)]
          · rw [Raw.items?, hstands, Raw.items?, itemsNesting, itemsNesting]
            split <;> rename_i hdepth <;> simp [hdepth]
      | cons w items =>
          obtain ⟨raws, hitems, hvalues⟩ := ih nofun fun u hu => h u (List.mem_cons_of_mem _ hu)
          refine ⟨raw :: raws, fun n rest hn => ?_, fun depth => ?_⟩
          · obtain ⟨n, rfl⟩ := Nat.exists_eq_succ_of_ne_zero (Nat.ne_zero_of_lt hn)
            rw [itemsText, List.length_append, List.length_cons] at hn
            rw [itemsText, List.append_assoc, List.cons_append, rawItems,
              hscans n _ (by omega) (stops_comma _)]
            have hmore := hitems n rest (by omega)
            simp [punctuation_of_ne (show isBlank ',' = false from rfl) (show ',' ≠ ']' by decide),
              punctuation_self (show isBlank ',' = false from rfl), hmore]
          · rw [Raw.items?, hstands, hvalues,
              show itemsNesting (v :: w :: items) = max v.nesting (itemsNesting (w :: items)) from rfl]
            generalize itemsNesting (w :: items) = k
            by_cases hfirst : v.nesting ≤ depth <;> by_cases hrest : k ≤ depth <;>
              simp [hfirst, hrest]

theorem exists_readable_array {items : List Value} (h : ∀ v ∈ items, ∃ raw, Readable v raw)
    (hregular : ∀ x ∈ (array items).numbers, x.Regular) :
    ∃ raws, Readable (.array items) (.array raws) := by
  by_cases hne : items = []
  · subst hne
    refine ⟨[], fun n rest hn _ => ?_, fun depth => ?_⟩
    · obtain ⟨n, rfl⟩ := Nat.exists_eq_succ_of_ne_zero (Nat.ne_zero_of_lt hn)
      rfl
    · cases depth <;> simp [Raw.value?, Raw.items?, nesting, itemsNesting]
  · obtain ⟨raws, hitems, hvalues⟩ := exists_items hne h
    refine ⟨raws, fun n rest hn _ => ?_, fun depth => ?_⟩
    · obtain ⟨n, rfl⟩ := Nat.exists_eq_succ_of_ne_zero (Nat.ne_zero_of_lt hn)
      obtain ⟨c, s, htext, hblank, hc⟩ := exists_head_items hne hregular
      rw [text] at hn ⊢
      have hread := hitems n rest (by simp at hn; omega)
      simp only [List.cons_append, List.append_assoc, List.nil_append]
      rw [rawValue, skipBlanks_cons (show isBlank '[' = false from rfl)]
      rw [htext, List.cons_append] at hread ⊢
      simp [punctuation_of_ne hblank hc, hread]
    · cases depth with
      | zero => simp [Raw.value?, nesting]
      | succ depth =>
          rw [Raw.value?, hvalues, nesting, mapNumbers_array]
          by_cases hdepth : itemsNesting items ≤ depth <;> simp [hdepth]

theorem exists_members {members : List (List Char × Value)} (hne : members ≠ [])
    (h : ∀ m ∈ members, ∃ raw, Readable m.2 raw) :
    ∃ raws,
      (∀ n rest, (membersText members).length + 1 < n →
        rawMembers n (membersText members ++ '\x7d' :: rest) = some (raws, rest)) ∧
      ∀ depth, Raw.members? depth raws = if membersNesting members ≤ depth then
        some (members.map fun m => (m.1, m.2.mapNumbers Number.reread)) else none := by
  induction members with
  | nil => exact absurd rfl hne
  | cons m members ih =>
      obtain ⟨key, v⟩ := m
      obtain ⟨raw, hscans, hstands⟩ : ∃ raw, Readable v raw := h (key, v) List.mem_cons_self
      have hcolon := fun s => punctuation_self (s := s) (show isBlank ':' = false from rfl)
      cases members with
      | nil =>
          refine ⟨[(key.map piece, raw)], fun n rest hn => ?_, fun depth => ?_⟩
          · obtain ⟨n, rfl⟩ := Nat.exists_eq_succ_of_ne_zero (Nat.ne_zero_of_lt hn)
            simp only [membersText, List.length_append, List.length_cons] at hn
            have hvalue := hscans n ('\x7d' :: rest) (by omega) (stops_cons rest rfl (by decide))
            rw [membersText, List.append_assoc, List.cons_append, rawMembers, quoted_quote]
            simp [hcolon, hvalue, punctuation_self (show isBlank '\x7d' = false from rfl)]
          · rw [Raw.members?, hstands, decode?_pieces, Raw.members?, membersNesting, membersNesting]
            split <;> rename_i hdepth <;> simp [hdepth]
      | cons w members =>
          obtain ⟨raws, hmembers, hvalues⟩ := ih nofun fun u hu => h u (List.mem_cons_of_mem _ hu)
          refine ⟨(key.map piece, raw) :: raws, fun n rest hn => ?_, fun depth => ?_⟩
          · obtain ⟨n, rfl⟩ := Nat.exists_eq_succ_of_ne_zero (Nat.ne_zero_of_lt hn)
            rw [membersText] at hn ⊢
            simp only [List.length_append, List.length_cons] at hn
            have hvalue := hscans n (',' :: (membersText (w :: members) ++ '\x7d' :: rest)) (by omega)
              (stops_comma _)
            have hmore := hmembers n rest (by omega)
            simp only [List.append_assoc, List.cons_append]
            rw [rawMembers, quoted_quote]
            simp [hcolon, hvalue, hmore,
              punctuation_of_ne (show isBlank ',' = false from rfl) (show ',' ≠ '\x7d' by decide),
              punctuation_self (show isBlank ',' = false from rfl)]
          · rw [Raw.members?, hstands, hvalues, decode?_pieces,
              show membersNesting ((key, v) :: w :: members) =
                max v.nesting (membersNesting (w :: members)) from rfl]
            generalize membersNesting (w :: members) = k
            by_cases hfirst : v.nesting ≤ depth <;> by_cases hrest : k ≤ depth <;>
              simp [hfirst, hrest]

theorem exists_head_membersText {members : List (List Char × Value)} (hne : members ≠ []) :
    ∃ s, membersText members = '"' :: s := by
  cases members with
  | nil => exact absurd rfl hne
  | cons m members => cases members <;> exact ⟨_, rfl⟩

theorem exists_readable_object {members : List (List Char × Value)}
    (h : ∀ m ∈ members, ∃ raw, Readable m.2 raw) :
    ∃ raws, Readable (.object members) (.object raws) := by
  by_cases hne : members = []
  · subst hne
    refine ⟨[], fun n rest hn _ => ?_, fun depth => ?_⟩
    · obtain ⟨n, rfl⟩ := Nat.exists_eq_succ_of_ne_zero (Nat.ne_zero_of_lt hn)
      rfl
    · cases depth <;> simp [Raw.value?, Raw.members?, nesting, membersNesting]
  · obtain ⟨raws, hmembers, hvalues⟩ := exists_members hne h
    refine ⟨raws, fun n rest hn _ => ?_, fun depth => ?_⟩
    · obtain ⟨n, rfl⟩ := Nat.exists_eq_succ_of_ne_zero (Nat.ne_zero_of_lt hn)
      obtain ⟨s, htext⟩ := exists_head_membersText hne
      rw [text] at hn ⊢
      have hread := hmembers n rest (by simp at hn; omega)
      simp only [List.cons_append, List.append_assoc, List.nil_append]
      rw [rawValue, skipBlanks_cons (show isBlank '\x7b' = false from rfl)]
      rw [htext, List.cons_append] at hread ⊢
      simp [punctuation_of_ne (show isBlank '"' = false from rfl) (show '"' ≠ '\x7d' by decide),
        hread]
    · cases depth with
      | zero => simp [Raw.value?, nesting]
      | succ depth =>
          rw [Raw.value?, hvalues, nesting, mapNumbers_object]
          by_cases hdepth : membersNesting members ≤ depth <;> simp [hdepth]

theorem exists_readable {v : Value} (h : ∀ x ∈ v.numbers, x.Regular) : ∃ raw, Readable v raw := by
  induction v using induct with
  | null => exact ⟨_, readable_null⟩
  | bool b => exact ⟨_, readable_bool b⟩
  | number x =>
      obtain ⟨y, hy⟩ := exists_readable_number (h x (by simp [numbers]))
      exact ⟨_, hy⟩
  | string s => exact ⟨_, readable_string s⟩
  | array items ih =>
      obtain ⟨raws, hraws⟩ := exists_readable_array (fun v hv => ih v hv fun x hx => h x (by
        rw [numbers_array]
        exact List.mem_flatMap.mpr ⟨v, hv, hx⟩)) h
      exact ⟨_, hraws⟩
  | object members ih =>
      obtain ⟨raws, hraws⟩ := exists_readable_object fun m hm => ih m hm fun x hx => h x (by
        rw [numbers_object]
        exact List.mem_flatMap.mpr ⟨m, hm, hx⟩)
      exact ⟨_, hraws⟩

theorem ofTextInOrder?_text {v : Value} (h : ∀ x ∈ v.numbers, x.Regular) {rest : List Char}
    (hstops : Stops rest) (hblank : skipBlanks rest = []) :
    ofTextInOrder? (v.text ++ rest) =
      if v.nesting ≤ maxNesting then some (v.mapNumbers Number.reread) else none := by
  obtain ⟨raw, hscans, hstands⟩ := exists_readable h
  have hfuel : v.text.length < (v.text ++ rest).length + 1 := by
    rw [List.length_append]
    omega
  have hread := hscans ((v.text ++ rest).length + 1) rest hfuel hstops
  rw [ofTextInOrder?, readRaw, hread]
  simp [hblank, hstands]

end Value

namespace Raw

mutual

theorem regular_of_value? : ∀ (r : Raw) {depth : Nat} {v : Value}, r.value? depth = some v →
    ∀ x ∈ v.numbers, x.Regular
  | .null, depth, v, h => by
      cases h
      exact nofun
  | .bool b, depth, v, h => by
      cases h
      exact nofun
  | .number y, depth, v, h => by
      obtain ⟨x, hx, rfl⟩ := Option.map_eq_some_iff.mp h
      intro z hz
      rw [List.mem_singleton.mp hz]
      exact Numeral.regular_of_number? hx
  | .string s, depth, v, h => by
      obtain ⟨t, -, rfl⟩ := Option.map_eq_some_iff.mp h
      exact nofun
  | .array items, depth, v, h => by
      cases depth with
      | zero => cases h
      | succ depth =>
          obtain ⟨vs, hvs, rfl⟩ := Option.map_eq_some_iff.mp h
          exact regular_of_items? items hvs
  | .object members, depth, v, h => by
      cases depth with
      | zero => cases h
      | succ depth =>
          obtain ⟨ms, hms, rfl⟩ := Option.map_eq_some_iff.mp h
          exact regular_of_members? members hms

theorem regular_of_items? : ∀ (items : List Raw) {depth : Nat} {vs : List Value},
    items? depth items = some vs → ∀ x ∈ Value.itemsNumbers vs, x.Regular
  | [], depth, vs, h => by
      cases h
      exact nofun
  | r :: rest, depth, vs, h => by
      obtain ⟨v, hv, hrest⟩ := Option.bind_eq_some_iff.mp h
      obtain ⟨ws, hws, hsame⟩ := Option.bind_eq_some_iff.mp hrest
      obtain rfl := Option.some.inj hsame
      intro x hx
      exact (List.mem_append.mp hx).elim (regular_of_value? r hv x) (regular_of_items? rest hws x)

theorem regular_of_members? : ∀ (members : List (List Piece × Raw)) {depth : Nat}
    {ms : List (List Char × Value)}, members? depth members = some ms →
      ∀ x ∈ Value.membersNumbers ms, x.Regular
  | [], depth, ms, h => by
      cases h
      exact nofun
  | (key, r) :: rest, depth, ms, h => by
      obtain ⟨k, -, hvalue⟩ := Option.bind_eq_some_iff.mp h
      obtain ⟨v, hv, hrest⟩ := Option.bind_eq_some_iff.mp hvalue
      obtain ⟨ws, hws, hsame⟩ := Option.bind_eq_some_iff.mp hrest
      obtain rfl := Option.some.inj hsame
      intro x hx
      exact (List.mem_append.mp hx).elim (regular_of_value? r hv x) (regular_of_members? rest hws x)

end

end Raw

namespace Value

theorem normal_of_ofText? {s : List Char} {v : Value} (h : ofText? s = some v) :
    v.normal = v ∧ ∀ x ∈ v.numbers, x.Regular := by
  obtain ⟨w, hw, rfl⟩ := Option.map_eq_some_iff.mp h
  obtain ⟨⟨raw, rest⟩, -, hraw⟩ := Option.bind_eq_some_iff.mp hw
  refine ⟨normal_normal w, fun x hx => ?_⟩
  dsimp only at hraw
  split at hraw
  · exact raw.regular_of_value? hraw x (mem_numbers_of_normal hx)
  · cases hraw

end Value

end InbandTrace.Json
