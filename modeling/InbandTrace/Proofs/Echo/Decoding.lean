import InbandTrace.Echo.Channel
import InbandTrace.Proofs.Json.Normal

namespace InbandTrace

open Json

namespace Json.Value

variable {members sorted : List (List Char × Value)} {key : List Char} {v : Value}

def said (key : List Char) (members : List (List Char × Value)) : List (List Char × Value) :=
  members.filter fun m => m.1 == key

theorem said_eq_nil (h : ∀ m ∈ members, keyBefore key m.1 = true) : said key members = [] := by
  refine List.filter_eq_nil_iff.mpr fun m hm hsame => ?_
  have hbefore := keyBefore_iff.mp (h m hm)
  rw [beq_iff_eq.mp hsame] at hbefore
  exact lt_irrefl key hbefore

theorem said_insertMember (h : Ascending sorted) (k : List Char) (v : Value) :
    said key (insertMember k v sorted) = if k = key then [(k, v)] else said key sorted := by
  induction sorted with
  | nil =>
      by_cases hk : k = key <;> simp [said, insertMember, hk]
  | cons first rest ih =>
      obtain ⟨hfirst, hrest⟩ := List.pairwise_cons.mp h
      rw [insertMember]
      by_cases hsame : k = first.1
      · rw [if_pos hsame]
        by_cases hk : k = key
        · subst hk
          have hnone : said k rest = [] := said_eq_nil (hsame ▸ hfirst)
          simpa [said] using hnone
        · simp [said, hk, ← hsame]
      · rw [if_neg hsame]
        by_cases hbefore : keyBefore k first.1 = true
        · rw [if_pos hbefore]
          by_cases hk : k = key
          · subst hk
            have hnone : said k (first :: rest) = [] := by
              refine said_eq_nil (List.forall_mem_cons.mpr ⟨hbefore, fun m hm => ?_⟩)
              exact keyBefore_iff.mpr
                ((keyBefore_iff.mp hbefore).trans (keyBefore_iff.mp (hfirst m hm)))
            simpa [said] using hnone
          · simp [said, hk]
        · rw [if_neg hbefore]
          have hlater := ih hrest
          by_cases hk : k = key
          · subst hk
            rw [if_pos rfl] at hlater ⊢
            simpa [said, Ne.symm hsame] using hlater
          · rw [if_neg hk] at hlater ⊢
            unfold said at hlater ⊢
            rw [List.filter_cons, List.filter_cons, hlater]

theorem exists_said_normal (members : List (List Char × Value)) :
    ∃ sorted, (object members).normal = .object sorted ∧ ∀ key,
      said key sorted = ((said key members).getLast?.map fun m => (m.1, m.2.normal)).toList := by
  have hfold : ∀ members : List (List Char × Value),
      let sorted := members.foldl (fun sorted m => insertMember m.1 m.2.normal sorted) []
      Ascending sorted ∧ ∀ key,
        said key sorted = ((said key members).getLast?.map fun m => (m.1, m.2.normal)).toList := by
    intro members
    induction members using List.reverseRecOn with
    | nil => exact ⟨List.Pairwise.nil, fun key => rfl⟩
    | append_singleton members m ih =>
        obtain ⟨hsorted, hsaid⟩ := ih
        simp only [List.foldl_append, List.foldl_cons, List.foldl_nil]
        refine ⟨hsorted.insertMember _ _, fun key => ?_⟩
        rw [said_insertMember hsorted, hsaid]
        by_cases hk : m.1 = key <;> simp [said, hk]
  exact ⟨_, normal_object members, (hfold members).2⟩

end Json.Value

namespace EchoMessage

variable {members sorted : List (List Char × Value)} {m : EchoMessage} {v x y : Value}

theorem real?_normal (v : Value) : real? v.normal = real? v := by
  cases v <;> rfl

theorem uint32?_normal (v : Value) : uint32? v.normal = uint32? v := by
  cases v <;> rfl

theorem string?_normal (v : Value) : string? v.normal = string? v := by
  cases v <;> rfl

theorem reals?_normal (v : Value) : reals? v.normal = reals? v := by
  cases v with
  | null | bool | number | string | object => rfl
  | array items =>
      rw [Value.normal_array, reals?, reals?]
      induction items with
      | nil => rfl
      | cons v items ih => rw [List.map_cons, List.mapM_cons, List.mapM_cons, real?_normal, ih]

theorem latency?_normal (x y : Value) : latency? x.normal y.normal = latency? x y := by
  rw [latency?, latency?, uint32?_normal, real?_normal]

theorem final?_normal (x y : Value) : final? x.normal y.normal = final? x y := by
  rw [final?, final?, string?_normal, reals?_normal]

theorem ofItems?_normal (items : List Value) :
    ofItems? (items.map Value.normal) = ofItems? items := by
  rcases items with _ | ⟨v, _ | ⟨x, _ | ⟨y, _ | ⟨z, rest⟩⟩⟩⟩
  · rfl
  · cases v <;> rfl
  · cases v <;> rfl
  · cases v with
    | string tag =>
        simp only [List.map_cons, List.map_nil, Value.normal, ofItems?, latency?_normal,
          final?_normal]
    | null | bool | number | array | object => rfl
  · cases v <;> rfl

def tag : EchoMessage → String
  | .latency .. => "ws-latency"
  | .final .. => "ws-final"

def first : EchoMessage → String
  | .latency .. => "seq"
  | .final .. => "UUID"

def second : EchoMessage → String
  | .latency .. => "sent_at"
  | .final .. => "latencies"

def fields (m : EchoMessage) : List String := ["type", m.first, m.second]

def make? : EchoMessage → Value → Value → Option EchoMessage
  | .latency .. => latency?
  | .final .. => final?

def OnceIn (m : EchoMessage) : Value → Prop
  | .object members => ∀ field ∈ m.fields, (Value.said field.toList members).length ≤ 1
  | _ => True

theorem make?_normal (m : EchoMessage) (x y : Value) :
    m.make? x.normal y.normal = m.make? x y := by
  cases m with
  | latency => exact latency?_normal x y
  | final => exact final?_normal x y

theorem ofMembers?_of_type (h : single? "type" members = some (Value.ofString m.tag)) :
    ofMembers? members = (single? m.first members).bind fun x =>
      (single? m.second members).bind fun y => m.make? x y := by
  unfold ofMembers?
  rw [h]
  cases m with
  | latency => exact if_pos rfl
  | final =>
      have hother : "ws-final".toList ≠ "ws-latency".toList := by decide
      exact (if_neg hother).trans (if_pos rfl)

theorem type_of_ofMembers? (h : ofMembers? members = some m) :
    single? "type" members = some (Value.ofString m.tag) := by
  obtain ⟨tag, htag, hread⟩ := Option.bind_eq_some_iff.mp h
  obtain ⟨t, htype, hstring⟩ := Option.bind_eq_some_iff.mp htag
  cases t with
  | string s =>
      cases hstring
      rw [htype]
      by_cases hlatency : tag = "ws-latency".toList
      · rw [if_pos hlatency] at hread
        obtain ⟨x, -, hread⟩ := Option.bind_eq_some_iff.mp hread
        obtain ⟨y, -, hread⟩ := Option.bind_eq_some_iff.mp hread
        obtain ⟨sequence, -, hread⟩ := Option.bind_eq_some_iff.mp hread
        obtain ⟨sentAt, -, hread⟩ := Option.bind_eq_some_iff.mp hread
        cases hread
        rw [hlatency]
        rfl
      · rw [if_neg hlatency] at hread
        split at hread
        · rename_i hfinal
          obtain ⟨x, -, hread⟩ := Option.bind_eq_some_iff.mp hread
          obtain ⟨y, -, hread⟩ := Option.bind_eq_some_iff.mp hread
          obtain ⟨id, -, hread⟩ := Option.bind_eq_some_iff.mp hread
          obtain ⟨latencies, -, hread⟩ := Option.bind_eq_some_iff.mp hread
          cases hread
          rw [hfinal]
          rfl
        · cases hread
  | null | bool | number | array | object => cases hstring

theorem ofMembers?_eq_some_iff : ofMembers? members = some m ↔ ∃ x y,
    single? "type" members = some (Value.ofString m.tag) ∧ single? m.first members = some x ∧
      single? m.second members = some y ∧ m.make? x y = some m := by
  constructor
  · intro h
    have htype := type_of_ofMembers? h
    rw [ofMembers?_of_type htype] at h
    obtain ⟨x, hx, h⟩ := Option.bind_eq_some_iff.mp h
    obtain ⟨y, hy, h⟩ := Option.bind_eq_some_iff.mp h
    exact ⟨x, y, htype, hx, hy, h⟩
  · rintro ⟨x, y, htype, hx, hy, h⟩
    rw [ofMembers?_of_type htype, hx, hy]
    exact h

theorem single?_eq_some_iff {key : String} :
    single? key members = some v ↔ Value.said key.toList members = [(key.toList, v)] := by
  unfold single? Value.said
  split
  · rename_i m hm
    have hkey : m.1 = key.toList := by
      have hmem : m ∈ members.filter fun m => m.1 == key.toList := by simp [hm]
      simpa using (List.mem_filter.mp hmem).2
    rw [hm, List.singleton_inj, Prod.ext_iff, Option.some.injEq]
    exact (and_iff_right hkey).symm
  · rename_i hmany
    exact iff_of_false (by simp) (hmany _)

section

variable {key : String} (hsorted : Value.said key.toList sorted =
  ((Value.said key.toList members).getLast?.map fun m => (m.1, m.2.normal)).toList)
include hsorted

theorem single?_sorted (h : single? key members = some v) :
    single? key sorted = some v.normal ∧ (Value.said key.toList members).length ≤ 1 := by
  have hsaid := single?_eq_some_iff.mp h
  rw [single?_eq_some_iff, hsorted, hsaid]
  exact ⟨rfl, Nat.le_refl 1⟩

theorem exists_single?_of_sorted (h : single? key sorted = some v)
    (honce : (Value.said key.toList members).length ≤ 1) :
    ∃ w, single? key members = some w ∧ w.normal = v := by
  rw [single?_eq_some_iff, hsorted] at h
  match hsaid : Value.said key.toList members with
  | [] =>
      rw [hsaid] at h
      cases h
  | [(k, w)] =>
      rw [hsaid] at h
      cases h
      exact ⟨w, single?_eq_some_iff.mpr hsaid, rfl⟩
  | _ :: _ :: _ =>
      rw [hsaid] at honce
      simp at honce

end

theorem normal_eq_string {s : List Char} (h : v.normal = .string s) : v = .string s := by
  cases v with
  | string t => exact h
  | null | bool | number | array | object => cases h

theorem ofMembers?_sorted_iff (hsaid : ∀ key, Value.said key sorted =
    ((Value.said key members).getLast?.map fun m => (m.1, m.2.normal)).toList) :
    ofMembers? members = some m ↔
      ofMembers? sorted = some m ∧ m.OnceIn (.object members) := by
  constructor
  · intro h
    obtain ⟨x, y, htype, hx, hy, hmake⟩ := ofMembers?_eq_some_iff.mp h
    obtain ⟨htype', honce⟩ := single?_sorted (hsaid _) htype
    obtain ⟨hx', hxonce⟩ := single?_sorted (hsaid _) hx
    obtain ⟨hy', hyonce⟩ := single?_sorted (hsaid _) hy
    refine ⟨ofMembers?_eq_some_iff.mpr ⟨_, _, htype', hx', hy', ?_⟩, ?_⟩
    · rw [make?_normal]
      exact hmake
    · simp only [OnceIn, fields, List.forall_mem_cons]
      exact ⟨honce, hxonce, hyonce, nofun⟩
  · rintro ⟨h, honce⟩
    simp only [OnceIn, fields, List.forall_mem_cons] at honce
    obtain ⟨htypeonce, hxonce, hyonce, -⟩ := honce
    obtain ⟨x, y, htype, hx, hy, hmake⟩ := ofMembers?_eq_some_iff.mp h
    obtain ⟨t, ht, htag⟩ := exists_single?_of_sorted (hsaid _) htype htypeonce
    obtain ⟨x, hx', rfl⟩ := exists_single?_of_sorted (hsaid _) hx hxonce
    obtain ⟨y, hy', rfl⟩ := exists_single?_of_sorted (hsaid _) hy hyonce
    obtain rfl := normal_eq_string htag
    rw [make?_normal] at hmake
    exact ofMembers?_eq_some_iff.mpr ⟨x, y, ht, hx', hy', hmake⟩

theorem ofValue?_eq_some_iff (v : Value) (m : EchoMessage) :
    ofValue? v = some m ↔ ofValue? v.normal = some m ∧ m.OnceIn v := by
  cases v with
  | null | bool | number | string => exact (and_iff_left trivial).symm
  | array items =>
      have hsame : ofValue? (Value.array items).normal = ofValue? (.array items) := by
        rw [Value.normal_array]
        exact ofItems?_normal items
      rw [hsame]
      exact (and_iff_left trivial).symm
  | object members =>
      obtain ⟨sorted, hnormal, hsaid⟩ := Value.exists_said_normal members
      rw [hnormal]
      exact ofMembers?_sorted_iff hsaid

/-- A text is a message directly iff it is that message by way of its normal form, as the channel
takes it, and gives no field of the message twice. -/
theorem decoded_iff_once (s : List Char) :
    let served := (Value.ofText? s).bind ofValue?
    (EchoChannel.understand? (.text s)).map Prod.snd = served ∧
    (∀ m, ofText? s = some m ↔
      served = some m ∧ ∀ v, Value.ofTextInOrder? s = some v → m.OnceIn v) ∧
    (ofText? s = served ↔
      ∀ m v, served = some m → Value.ofTextInOrder? s = some v → m.OnceIn v) := by
  intro served
  have hiff : ∀ m, ofText? s = some m ↔
      served = some m ∧ ∀ v, Value.ofTextInOrder? s = some v → m.OnceIn v := by
    intro m
    unfold served ofText? Value.ofText?
    cases Value.ofTextInOrder? s with
    | none => exact ⟨nofun, fun h => nomatch h.1⟩
    | some v =>
        refine (ofValue?_eq_some_iff v m).trans (and_congr_right fun _ => ⟨?_, fun h => h v rfl⟩)
        rintro honce w ⟨⟩
        exact honce
  refine ⟨?_, hiff, fun hsame m v hserved hv => ?_, fun honce => Option.ext fun m => ?_⟩
  · unfold served EchoChannel.understand?
    change ((Value.ofText? s).bind fun value => (ofValue? value).bind fun m =>
      some (value, m)).map Prod.snd = _
    cases Value.ofText? s with
    | none => rfl
    | some v => cases hm : ofValue? v <;> simp [hm]
  · rw [← hsame] at hserved
    exact ((hiff m).mp hserved).2 v hv
  · rw [hiff]
    exact and_iff_left_of_imp fun hserved v hv => honce m v hserved hv

def repeatedText : List Char :=
  "\x7b\"type\":\"ws-latency\",\"seq\":1,\"seq\":2,\"sent_at\":0.5\x7d".toList

theorem decoded_of_repeated :
    ofText? repeatedText = none ∧
      (Value.ofText? repeatedText).bind ofValue? =
        some (.latency 2 (.finite false 4503599627370496 1021)) := by
  constructor
  · decide +kernel
  · decide +kernel

def orderlessText : List Char :=
  "\x7b\"a\":[1],\"sent_at\":0.5,\"a\":\x7b\x7d,\"seq\":2,\"type\":\"ws-latency\"\x7d".toList

theorem decoded_of_orderless :
    let m := .latency 2 (.finite false 4503599627370496 1021)
    ofText? orderlessText = some m ∧ (Value.ofText? orderlessText).bind ofValue? = some m := by
  intro m
  have hm : ofText? orderlessText = some m := by decide +kernel
  obtain ⟨-, hiff, -⟩ := decoded_iff_once orderlessText
  exact ⟨hm, ((hiff m).mp hm).1⟩

end EchoMessage

end InbandTrace
