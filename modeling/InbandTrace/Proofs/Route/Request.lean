import InbandTrace.Route

namespace InbandTrace

theorem Text.splitOn_eq (separator : Char) (s : List Char) :
    splitOn separator s = s.splitOn separator := by
  induction s with
  | nil => rfl
  | cons c rest ih =>
      have hne : splitOn separator rest ≠ [] := ih ▸ List.splitOn_ne_nil separator rest
      obtain ⟨part, parts, hparts⟩ := List.exists_cons_of_ne_nil hne
      rw [splitOn, List.splitOn_cons_eq_if_modifyHead, ← ih, hparts]
      by_cases hc : c = separator <;> simp [hc]

namespace Route

def pieces (query : List Char) : List (List Char) :=
  (query.splitOn '&').filter fun p => !p.isEmpty

theorem parameters_eq (query : List Char) : parameters query = pieces query := by
  rw [parameters, Text.splitOn_eq, pieces]

def key (p : List Char) : List Char := p.takeWhile (· != '=')

def value (p : List Char) : List Char := (p.dropWhile (· != '=')).drop 1

theorem key_identifier (v : List Char) : key ("uuid=".toList ++ v) = "uuid".toList := rfl

theorem value_identifier (v : List Char) : value ("uuid=".toList ++ v) = v := rfl

theorem eq_of_key {p : List Char} {id : Uuid} (hkey : key p = "uuid".toList)
    (hvalue : Uuid.ofText (value p) = .ok id) : p = "uuid=".toList ++ value p := by
  have hsplit : key p ++ p.dropWhile (· != '=') = p := List.takeWhile_append_dropWhile ..
  rw [hkey] at hsplit
  cases hrest : p.dropWhile (· != '=') with
  -- Nothing is no identifier, so a key without an equals sign has no value.
  | nil =>
      rw [value, hrest] at hvalue
      cases hvalue
  | cons c rest =>
      have hsign := List.head?_dropWhile_not (· != '=') p
      simp only [hrest, List.head?_cons, bne_eq_false_iff_eq] at hsign
      rw [hrest, hsign] at hsplit
      rw [value, hrest]
      exact hsplit.symm

inductive Offends (before : List (List Char)) (p : List Char) : QueryError → Prop where
  | foreign (h : key p ≠ "uuid".toList) : Offends before p (.unexpected (key p))
  | again (h : key p = "uuid".toList) (hb : ∃ q ∈ before, key q = "uuid".toList) :
      Offends before p .repeated
  | unread (h : key p = "uuid".toList) (hb : ∀ q ∈ before, key q ≠ "uuid".toList)
      {e : Uuid.Error} (he : Uuid.ofText (value p) = .error e) : Offends before p (.invalid e)

def Leftmost (done ps : List (List Char)) (e : QueryError) : Prop :=
  ∃ before p after, ps = before ++ p :: after ∧ Offends (done ++ before) p e ∧
    ∀ b q a, before = b ++ q :: a → ∀ e', ¬ Offends (done ++ b) q e'

theorem not_leftmost_nil (done : List (List Char)) (e : QueryError) : ¬ Leftmost done [] e := by
  rintro ⟨before, p, after, hsplit, -⟩
  cases before <;> cases hsplit

theorem Offends.unique {before : List (List Char)} {p : List Char} {e e' : QueryError}
    (h : Offends before p e) (h' : Offends before p e') : e' = e := by
  cases h with
  | foreign hkey =>
      cases h' with
      | foreign => rfl
      | again hkey' | unread hkey' => exact absurd hkey' hkey
  | again hkey hb =>
      obtain ⟨q, hq, hsame⟩ := hb
      cases h' with
      | foreign hkey' => exact absurd hkey hkey'
      | again => rfl
      | unread _ hb' => exact absurd hsame (hb' q hq)
  | unread hkey hb he =>
      cases h' with
      | foreign hkey' => exact absurd hkey hkey'
      | again _ hb' =>
          obtain ⟨q, hq, hsame⟩ := hb'
          exact absurd hsame (hb q hq)
      | unread _ _ he' =>
          rw [he] at he'
          cases he'
          rfl

theorem leftmost_cons_of_offends {done ps : List (List Char)} {p : List Char} {e : QueryError}
    (h : Offends done p e) (e' : QueryError) : Leftmost done (p :: ps) e' ↔ e = e' := by
  constructor
  · rintro ⟨before, q, after, hsplit, hoffends, hsound⟩
    cases before with
    | nil =>
        cases hsplit
        rw [List.append_nil] at hoffends
        exact hoffends.unique h
    | cons first before =>
        cases hsplit
        refine absurd ?_ (hsound [] p before rfl e)
        rwa [List.append_nil]
  · rintro rfl
    refine ⟨[], p, ps, rfl, by rwa [List.append_nil], fun b q a hsplit => ?_⟩
    cases b <;> cases hsplit

theorem leftmost_cons_of_sound {done ps : List (List Char)} {p : List Char}
    (h : ∀ e, ¬ Offends done p e) (e : QueryError) :
    Leftmost done (p :: ps) e ↔ Leftmost (done ++ [p]) ps e := by
  constructor
  · rintro ⟨before, q, after, hsplit, hoffends, hsound⟩
    cases before with
    | nil =>
        cases hsplit
        rw [List.append_nil] at hoffends
        exact absurd hoffends (h e)
    | cons first before =>
        cases hsplit
        refine ⟨before, q, after, rfl, by rwa [List.append_assoc, List.singleton_append],
          fun b r a hb e' => ?_⟩
        have hsound' := hsound (p :: b) r a (by rw [hb, List.cons_append]) e'
        rwa [List.append_assoc, List.singleton_append]
  · rintro ⟨before, q, after, rfl, hoffends, hsound⟩
    rw [List.append_assoc, List.singleton_append] at hoffends
    refine ⟨p :: before, q, after, rfl, hoffends, fun b r a hb e' => ?_⟩
    cases b with
    | nil =>
        cases hb
        rw [List.append_nil]
        exact h e'
    | cons first b =>
        cases hb
        have hsound' := hsound b r a rfl e'
        rwa [List.append_assoc, List.singleton_append] at hsound'

theorem readParameters_cons (id : Option Uuid) (p : List Char) (rest : List (List Char)) :
    readParameters id (p :: rest) =
      if key p = "uuid".toList then
        if id.isSome then .error .repeated
        else match Uuid.ofText (value p) with
          | .ok id => readParameters (some id) rest
          | .error e => .error (.invalid e)
      else .error (.unexpected (key p)) := by
  rw [readParameters]
  exact ite_not ..

section

variable {id u : Uuid} {ps : List (List Char)}

theorem readParameters_some_eq_ok_iff :
    readParameters (some id) ps = .ok u ↔ ps = [] ∧ id = u := by
  cases ps with
  | nil => simp [readParameters]
  | cons p rest =>
      rw [readParameters_cons]
      by_cases hkey : key p = "uuid".toList
      · simp only [if_pos hkey, Option.isSome_some, if_true, reduceCtorEq, false_and]
      · simp only [if_neg hkey, reduceCtorEq, false_and]

theorem readParameters_none_eq_ok_iff : readParameters none ps = .ok u ↔
    ∃ v, ps = ["uuid=".toList ++ v] ∧ Uuid.ofText v = .ok u := by
  constructor
  · intro h
    cases ps with
    | nil => cases h
    | cons p rest =>
        rw [readParameters_cons] at h
        by_cases hkey : key p = "uuid".toList
        · simp only [if_pos hkey, Option.isSome_none, Bool.false_eq_true, if_false] at h
          cases hread : Uuid.ofText (value p) with
          | error e =>
              rw [hread] at h
              cases h
          | ok id =>
              rw [hread] at h
              obtain ⟨rfl, rfl⟩ := readParameters_some_eq_ok_iff.mp h
              exact ⟨value p, by rw [← eq_of_key hkey hread], hread⟩
        · rw [if_neg hkey] at h
          cases h
  · rintro ⟨v, rfl, hv⟩
    rw [readParameters_cons, key_identifier, value_identifier, if_pos rfl, hv]
    rfl

theorem readParameters_eq_error_iff {id : Option Uuid} {done : List (List Char)}
    (hdone : id.isSome = true ↔ ∃ q ∈ done, key q = "uuid".toList) (e : QueryError) :
    readParameters id ps = .error e ↔
      (ps = [] ∧ id = none ∧ e = .missing) ∨ Leftmost done ps e := by
  -- Of the pieces before, `readParameters` keeps only whether there has been an identifier.
  induction ps generalizing id done with
  | nil =>
      cases id with
      | none => simp [readParameters, not_leftmost_nil, eq_comm]
      | some id => simp [readParameters, not_leftmost_nil]
  | cons p rest ih =>
      have hstops : ∀ {e'}, Offends done p e' →
          ((.error e' : Except QueryError Uuid) = .error e ↔
            (p :: rest = [] ∧ id = none ∧ e = .missing) ∨ Leftmost done (p :: rest) e) := by
        intro e' hoffends
        rw [leftmost_cons_of_offends hoffends, Except.error.injEq]
        exact ⟨.inr, fun h => h.resolve_left fun hnil => nomatch hnil.1⟩
      rw [readParameters_cons]
      by_cases hkey : key p = "uuid".toList
      · rw [if_pos hkey]
        cases id with
        | some id => exact hstops (.again hkey (hdone.mp rfl))
        | none =>
            have hfirst : ∀ q ∈ done, key q ≠ "uuid".toList := fun q hq hsame =>
              nomatch hdone.mpr ⟨q, hq, hsame⟩
            rw [if_neg (by decide)]
            cases hread : Uuid.ofText (value p) with
            | error x => exact hstops (.unread hkey hfirst hread)
            | ok id =>
                have hsound : ∀ e', ¬ Offends done p e' := by
                  intro e' hoffends
                  cases hoffends with
                  | foreign hforeign => exact hforeign hkey
                  | again _ hb =>
                      obtain ⟨q, hq, hsame⟩ := hb
                      exact hfirst q hq hsame
                  | unread _ _ he => exact nomatch hread.symm.trans he
                have hafter : (some id).isSome = true ↔
                    ∃ q ∈ done ++ [p], key q = "uuid".toList :=
                  ⟨fun _ => ⟨p, List.mem_append_right _ (List.mem_singleton_self p), hkey⟩,
                    fun _ => rfl⟩
                rw [leftmost_cons_of_sound hsound]
                refine (ih hafter).trans ?_
                simp
      · rw [if_neg hkey]
        exact hstops (.foreign hkey)

end

theorem pieces_append (a b : List Char) : pieces (a ++ '&' :: b) = pieces a ++ pieces b := by
  rw [pieces, List.splitOn_append_cons_self, List.filter_append, ← pieces, ← pieces]

theorem ofRequest_congr {path query query' : List Char} (h : pieces query' = pieces query) :
    ofRequest path query' = ofRequest path query := by
  rw [ofRequest, ofRequest, parameters_eq, parameters_eq, h]

section

variable (path query : List Char)

theorem ofRequest_eq : ofRequest path query =
    if path = "/trace".toList then
      match readParameters none (pieces query) with
      | .ok id => .ok (.trace id)
      | .error e => .error (.badQuery e)
    else if path = "/echo".toList then .ok .echo
    else .error (.notFound path) := by
  rw [← parameters_eq]
  rfl

theorem ofRequest_eq_trace_iff (id : Uuid) : ofRequest path query = .ok (.trace id) ↔
    path = "/trace".toList ∧ readParameters none (pieces query) = .ok id := by
  rw [ofRequest_eq]
  generalize "/trace".toList = trace
  by_cases hpath : path = trace
  · rw [if_pos hpath]
    cases readParameters none (pieces query) <;> simp [hpath]
  · rw [if_neg hpath]
    split <;> simp [hpath]

theorem ofRequest_eq_badQuery_iff (e : QueryError) :
    ofRequest path query = .error (.badQuery e) ↔
      path = "/trace".toList ∧ readParameters none (pieces query) = .error e := by
  rw [ofRequest_eq]
  generalize "/trace".toList = trace
  by_cases hpath : path = trace
  · rw [if_pos hpath]
    cases readParameters none (pieces query) <;> simp [hpath]
  · rw [if_neg hpath]
    split <;> simp [hpath]

theorem ofRequest_eq_echo_iff : ofRequest path query = .ok .echo ↔ path = "/echo".toList := by
  have hdistinct : "/echo".toList ≠ "/trace".toList := by decide
  rw [ofRequest_eq]
  generalize "/trace".toList = trace at hdistinct ⊢
  generalize "/echo".toList = echo at hdistinct ⊢
  by_cases hpath : path = trace
  · rw [if_pos hpath]
    cases readParameters none (pieces query) <;> simp [hpath, hdistinct.symm]
  · rw [if_neg hpath]
    by_cases hecho : path = echo <;> simp [hecho]

theorem ofRequest_eq_notFound_iff (p : List Char) :
    ofRequest path query = .error (.notFound p) ↔
      path ≠ "/trace".toList ∧ path ≠ "/echo".toList ∧ p = path := by
  rw [ofRequest_eq]
  generalize "/trace".toList = trace
  generalize "/echo".toList = echo
  by_cases hpath : path = trace
  · rw [if_pos hpath]
    cases readParameters none (pieces query) <;> simp [hpath]
  · rw [if_neg hpath]
    by_cases hecho : path = echo <;> simp [hpath, hecho, eq_comm]

theorem route_of_request :
    (∀ id, ofRequest path query = .ok (.trace id) ↔ path = "/trace".toList ∧
      ∃ v, pieces query = ["uuid=".toList ++ v] ∧ Uuid.ofText v = .ok id) ∧
    (ofRequest path query = .ok .echo ↔ path = "/echo".toList) ∧
    (∀ e, ofRequest path query = .error (.badQuery e) ↔ path = "/trace".toList ∧
      ((pieces query = [] ∧ e = .missing) ∨ Leftmost [] (pieces query) e)) ∧
    (∀ p, ofRequest path query = .error (.notFound p) ↔
      path ≠ "/trace".toList ∧ path ≠ "/echo".toList ∧ p = path) ∧
    (∀ e, (RouteError.badQuery e).status = 400) ∧ (∀ p, (RouteError.notFound p).status = 404) ∧
    (∀ query', pieces query' = pieces query → ofRequest path query' = ofRequest path query) ∧
    ∀ a b, pieces (a ++ '&' :: '&' :: b) = pieces (a ++ '&' :: b) ∧
      pieces ('&' :: a) = pieces a ∧ pieces (a ++ ['&']) = pieces a := by
  refine ⟨fun id => ?_, ofRequest_eq_echo_iff path query, fun e => ?_,
    ofRequest_eq_notFound_iff path query, fun _ => rfl, fun _ => rfl, fun _ => ofRequest_congr,
    fun a b => ?_⟩
  · rw [ofRequest_eq_trace_iff, readParameters_none_eq_ok_iff]
  · have hstart : (none : Option Uuid).isSome = true ↔
        ∃ q ∈ ([] : List (List Char)), key q = "uuid".toList := by simp
    rw [ofRequest_eq_badQuery_iff, readParameters_eq_error_iff hstart]
    simp
  · have hnone : pieces [] = [] := rfl
    have hfront : ∀ s, pieces ('&' :: s) = pieces s := fun s => pieces_append [] s
    refine ⟨?_, hfront a, ?_⟩
    · rw [pieces_append, pieces_append, hfront]
    · rw [pieces_append, hnone, List.append_nil]

end

end Route

end InbandTrace
