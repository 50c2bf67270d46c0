import InbandTrace.Json.Value
import Mathlib.Data.Char
import Mathlib.Data.List.Induction
import Mathlib.Data.List.Lex

namespace InbandTrace.Json.Value

@[elab_as_elim]
theorem induct {motive : Value → Prop} (null : motive .null) (bool : ∀ b, motive (.bool b))
    (number : ∀ x, motive (.number x)) (string : ∀ s, motive (.string s))
    (array : ∀ items, (∀ v ∈ items, motive v) → motive (.array items))
    (object : ∀ members, (∀ m ∈ members, motive m.2) → motive (.object members)) (v : Value) :
    motive v :=
  @Value.rec motive (fun items => ∀ v ∈ items, motive v)
    (fun members => ∀ m ∈ members, motive m.2) (fun m => motive m.2) null bool number string array
    object nofun (fun _ _ hv hrest => List.forall_mem_cons.mpr ⟨hv, hrest⟩) nofun
    (fun _ _ hm hrest => List.forall_mem_cons.mpr ⟨hm, hrest⟩) (fun _ _ hv => hv) v

mutual

def numbers : Value → List Number
  | .number x => [x]
  | .array items => itemsNumbers items
  | .object members => membersNumbers members
  | _ => []

def itemsNumbers : List Value → List Number
  | [] => []
  | v :: rest => numbers v ++ itemsNumbers rest

def membersNumbers : List (List Char × Value) → List Number
  | [] => []
  | (_, v) :: rest => numbers v ++ membersNumbers rest

end

mutual

def mapNumbers (f : Number → Number) : Value → Value
  | .number x => .number (f x)
  | .array items => .array (mapItems f items)
  | .object members => .object (mapMembers f members)
  | v => v

def mapItems (f : Number → Number) : List Value → List Value
  | [] => []
  | v :: rest => mapNumbers f v :: mapItems f rest

def mapMembers (f : Number → Number) : List (List Char × Value) → List (List Char × Value)
  | [] => []
  | (key, v) :: rest => (key, mapNumbers f v) :: mapMembers f rest

end

mutual

def nesting : Value → Nat
  | .array items => itemsNesting items + 1
  | .object members => membersNesting members + 1
  | _ => 0

def itemsNesting : List Value → Nat
  | [] => 0
  | v :: rest => max (nesting v) (itemsNesting rest)

def membersNesting : List (List Char × Value) → Nat
  | [] => 0
  | (_, v) :: rest => max (nesting v) (membersNesting rest)

end

section

variable (items : List Value) (members : List (List Char × Value))

@[simp]
theorem numbers_array : (array items).numbers = items.flatMap numbers := by
  rw [numbers]
  induction items with
  | nil => rfl
  | cons v items ih => rw [itemsNumbers, ih, List.flatMap_cons]

@[simp]
theorem numbers_object : (object members).numbers = members.flatMap fun m => m.2.numbers := by
  rw [numbers]
  induction members with
  | nil => rfl
  | cons m members ih => rw [membersNumbers, ih, List.flatMap_cons]

@[simp]
theorem mapNumbers_array (f : Number → Number) :
    (array items).mapNumbers f = .array (items.map (mapNumbers f)) := by
  rw [mapNumbers]
  congr 1
  induction items with
  | nil => rfl
  | cons v items ih => rw [mapItems, ih, List.map_cons]

@[simp]
theorem mapNumbers_object (f : Number → Number) :
    (object members).mapNumbers f = .object (members.map fun m => (m.1, m.2.mapNumbers f)) := by
  rw [mapNumbers]
  congr 1
  induction members with
  | nil => rfl
  | cons m members ih => rw [mapMembers, ih, List.map_cons]

@[simp]
theorem normal_array : (array items).normal = .array (items.map normal) := by
  rw [normal]
  congr 1
  induction items with
  | nil => rfl
  | cons v items ih => rw [normalItems, ih, List.map_cons]

theorem normal_object : (object members).normal =
    .object (members.foldl (fun sorted m => insertMember m.1 m.2.normal sorted) []) := by
  rw [normal]
  congr 1
  generalize [] = sorted
  induction members generalizing sorted with
  | nil => rfl
  | cons m members ih => rw [normalMembers, ih, List.foldl_cons]

end

theorem mapNumbers_eq_self_iff {f : Number → Number} {v : Value} :
    v.mapNumbers f = v ↔ ∀ x ∈ v.numbers, f x = x := by
  induction v using induct with
  | null | bool | string => simp [mapNumbers, numbers]
  | number x => simp [mapNumbers, numbers]
  | array items ih =>
      have hmap : items.map (mapNumbers f) = items ↔ ∀ v ∈ items, v.mapNumbers f = v := by
        conv_lhs => rhs; rw [← List.map_id items]
        exact List.map_inj_left
      rw [mapNumbers_array, array.injEq, hmap, numbers_array]
      simp only [List.mem_flatMap, forall_exists_index, and_imp]
      exact ⟨fun h x v hv hx => (ih v hv).mp (h v hv) x hx,
        fun h v hv => (ih v hv).mpr fun x hx => h x v hv hx⟩
  | object members ih =>
      have hmap : members.map (fun m => (m.1, m.2.mapNumbers f)) = members ↔
          ∀ m ∈ members, m.2.mapNumbers f = m.2 := by
        conv_lhs => rhs; rw [← List.map_id members]
        rw [List.map_inj_left]
        exact forall₂_congr fun m _ => by simp [Prod.ext_iff]
      rw [mapNumbers_object, object.injEq, hmap, numbers_object]
      simp only [List.mem_flatMap, forall_exists_index, and_imp]
      exact ⟨fun h x m hm hx => (ih m hm).mp (h m hm) x hx,
        fun h m hm => (ih m hm).mpr fun x hx => h x m hm hx⟩

theorem keyBefore_iff {s t : List Char} : keyBefore s t = true ↔ s < t := by
  induction s generalizing t with
  | nil => cases t <;> simp [keyBefore]
  | cons c s ih =>
      cases t with
      | nil => simp [keyBefore]
      | cons d t => simp [keyBefore, List.cons_lt_cons_iff, ih, Char.lt_def, UInt32.lt_iff_toNat_lt]

def Ascending (members : List (List Char × Value)) : Prop :=
  members.Pairwise fun a b => keyBefore a.1 b.1 = true

section

variable {members : List (List Char × Value)} {key : List Char} {v : Value}

theorem mem_insertMember {m : List Char × Value} (h : m ∈ insertMember key v members) :
    m = (key, v) ∨ m ∈ members := by
  induction members with
  | nil => exact .inl (List.mem_singleton.mp h)
  | cons first rest ih =>
      rw [insertMember] at h
      split at h
      · exact (List.mem_cons.mp h).imp_right (List.mem_cons_of_mem _)
      · split at h
        · exact List.mem_cons.mp h
        · rcases List.mem_cons.mp h with rfl | hrest
          · exact .inr List.mem_cons_self
          · exact (ih hrest).imp_right (List.mem_cons_of_mem _)

theorem Ascending.insertMember (h : Ascending members) (key : List Char) (v : Value) :
    Ascending (insertMember key v members) := by
  induction members with
  | nil => exact List.pairwise_singleton _ _
  | cons first rest ih =>
      obtain ⟨hfirst, hrest⟩ := List.pairwise_cons.mp h
      rw [Value.insertMember]
      split
      · rename_i hsame
        subst hsame
        exact List.pairwise_cons.mpr ⟨hfirst, hrest⟩
      · rename_i hne
        split
        · rename_i hbefore
          refine List.pairwise_cons.mpr ⟨?_, h⟩
          intro m hm
          rcases List.mem_cons.mp hm with rfl | hm
          · exact hbefore
          · exact keyBefore_iff.mpr ((keyBefore_iff.mp hbefore).trans
              (keyBefore_iff.mp (hfirst m hm)))
        · rename_i hbefore
          refine List.pairwise_cons.mpr ⟨?_, ih hrest⟩
          intro m hm
          rcases mem_insertMember hm with rfl | hm
          · rw [keyBefore_iff] at hbefore ⊢
            exact lt_of_le_of_ne (not_lt.mp hbefore) (Ne.symm hne)
          · exact hfirst m hm

theorem insertMember_of_last (h : ∀ m ∈ members, keyBefore m.1 key = true) :
    insertMember key v members = members ++ [(key, v)] := by
  induction members with
  | nil => rfl
  | cons first rest ih =>
      have hfirst := keyBefore_iff.mp (h first List.mem_cons_self)
      rw [insertMember, if_neg (ne_of_gt hfirst), if_neg, ih fun m hm => h m (List.mem_cons_of_mem _ hm)]
      · rfl
      · rw [keyBefore_iff]
        exact not_lt.mpr hfirst.le

theorem normal_of_ascending (h : Ascending members) :
    (object members).normal = .object (members.map fun m => (m.1, m.2.normal)) := by
  rw [normal_object]
  congr 1
  induction members using List.reverseRecOn with
  | nil => rfl
  | append_singleton members m ih =>
      obtain ⟨hmembers, -, hlast⟩ := List.pairwise_append.mp h
      rw [List.foldl_append, ih hmembers, List.foldl_cons, List.foldl_nil, insertMember_of_last,
        List.map_append]
      · rfl
      · intro k hk
        obtain ⟨k', hk', rfl⟩ := List.mem_map.mp hk
        exact hlast k' hk' m (List.mem_singleton_self m)

theorem exists_normal_object (members : List (List Char × Value)) :
    ∃ sorted, (object members).normal = .object sorted ∧ Ascending sorted ∧
      ∀ m ∈ sorted, ∃ k ∈ members, m = (k.1, k.2.normal) := by
  refine ⟨_, normal_object members, ?_⟩
  induction members using List.reverseRecOn with
  | nil => exact ⟨List.Pairwise.nil, nofun⟩
  | append_singleton members m ih =>
      obtain ⟨hsorted, hfrom⟩ := ih
      rw [List.foldl_append, List.foldl_cons, List.foldl_nil]
      refine ⟨hsorted.insertMember _ _, ?_⟩
      intro k hk
      rcases mem_insertMember hk with rfl | hold
      · exact ⟨m, List.mem_append_right _ (List.mem_singleton_self m), rfl⟩
      · obtain ⟨k', hk', hsame⟩ := hfrom k hold
        exact ⟨k', List.mem_append_left _ hk', hsame⟩

end

theorem normal_normal (v : Value) : v.normal.normal = v.normal := by
  induction v using induct with
  | null | bool | number | string => rfl
  | array items ih =>
      rw [normal_array, normal_array, List.map_map]
      congr 1
      exact List.map_congr_left ih
  | object members ih =>
      obtain ⟨sorted, hnormal, hsorted, hfrom⟩ := exists_normal_object members
      rw [hnormal, normal_of_ascending hsorted]
      congr 1
      refine (List.map_congr_left fun m hm => ?_).trans (List.map_id sorted)
      obtain ⟨k, hk, rfl⟩ := hfrom m hm
      exact Prod.ext rfl (ih k hk)

theorem mem_numbers_of_normal {v : Value} {x : Number} (h : x ∈ v.normal.numbers) :
    x ∈ v.numbers := by
  induction v using induct with
  | null | bool | number | string => exact h
  | array items ih =>
      rw [normal_array, numbers_array, List.flatMap_map, List.mem_flatMap] at h
      obtain ⟨v, hv, hx⟩ := h
      rw [numbers_array]
      exact List.mem_flatMap.mpr ⟨v, hv, ih v hv hx⟩
  | object members ih =>
      obtain ⟨sorted, hnormal, -, hfrom⟩ := exists_normal_object members
      rw [hnormal, numbers_object, List.mem_flatMap] at h
      obtain ⟨m, hm, hx⟩ := h
      obtain ⟨k, hk, rfl⟩ := hfrom m hm
      rw [numbers_object]
      exact List.mem_flatMap.mpr ⟨k, hk, ih k hk hx⟩

theorem insertMember_map (g : Value → Value) (key : List Char) (v : Value)
    (members : List (List Char × Value)) :
    insertMember key (g v) (members.map fun m => (m.1, g m.2)) =
      (insertMember key v members).map fun m => (m.1, g m.2) := by
  induction members with
  | nil => rfl
  | cons first rest ih =>
      simp only [List.map_cons, insertMember, ih]
      split
      · rfl
      · split <;> rfl

theorem normal_mapNumbers (f : Number → Number) (v : Value) :
    (v.mapNumbers f).normal = v.normal.mapNumbers f := by
  induction v using induct with
  | null | bool | number | string => rfl
  | array items ih =>
      rw [mapNumbers_array, normal_array, normal_array, mapNumbers_array, List.map_map, List.map_map]
      congr 1
      exact List.map_congr_left ih
  | object members ih =>
      rw [mapNumbers_object, normal_object, normal_object, mapNumbers_object, List.foldl_map]
      congr 1
      -- The normal form inserts members from the left, so the induction takes the last one off.
      induction members using List.reverseRecOn with
      | nil => rfl
      | append_singleton members m ih' =>
          have hlast := ih m (List.mem_append_right _ (List.mem_singleton_self m))
          have hmembers := ih' fun k hk => ih k (List.mem_append_left _ hk)
          simp only [List.foldl_append, List.foldl_cons, List.foldl_nil, hmembers, hlast]
          exact insertMember_map (mapNumbers f) _ _ _

end InbandTrace.Json.Value
