import InbandTrace.Connection.Basic

namespace InbandTrace

def Agenda.Ordered (agenda : Agenda) : Prop := agenda.Pairwise fun x y => x.1 ≤ y.1

namespace Agenda

theorem mem_schedule {due : Instant} {e : Event} {agenda : Agenda} {x : Instant × Event} :
    x ∈ schedule due e agenda ↔ x = (due, e) ∨ x ∈ agenda := by
  induction agenda with
  | nil => simp [schedule]
  | cons y rest ih =>
      simp only [schedule]
      split
      · simp only [List.mem_cons, ih]
        exact or_left_comm
      · simp [List.mem_cons]

theorem mem_scheduleAll {start : Instant} {events : List (Span × Event)} {agenda : Agenda}
    {x : Instant × Event} :
    x ∈ scheduleAll start events agenda ↔
      (∃ e ∈ events, x = (start + e.1, e.2)) ∨ x ∈ agenda := by
  induction events generalizing agenda with
  | nil => simp [scheduleAll]
  | cons e rest ih =>
      simp only [scheduleAll, List.foldl_cons] at ih ⊢
      rw [ih, mem_schedule]
      simp only [List.mem_cons, exists_eq_or_imp]
      rw [or_left_comm, ← or_assoc]

theorem schedule_of_lt {due : Instant} {agenda : Agenda} (h : ∀ x ∈ agenda, due < x.1)
    (e : Event) : schedule due e agenda = (due, e) :: agenda := by
  cases agenda with
  | nil => rfl
  | cons x rest => rw [schedule, if_neg (Nat.not_le_of_lt (h x List.mem_cons_self))]

theorem Ordered.schedule {agenda : Agenda} (h : agenda.Ordered) (due : Instant) (e : Event) :
    (agenda.schedule due e).Ordered := by
  induction agenda with
  | nil => simp [Agenda.schedule, Ordered]
  | cons y rest ih =>
      obtain ⟨hy, hrest⟩ := List.pairwise_cons.mp h
      simp only [Agenda.schedule]
      split
      · rename_i hle
        refine List.pairwise_cons.mpr ⟨?_, ih hrest⟩
        intro x hx
        rcases mem_schedule.mp hx with rfl | hx
        · exact hle
        · exact hy x hx
      · rename_i hlt
        refine List.pairwise_cons.mpr ⟨?_, h⟩
        intro x hx
        rcases List.mem_cons.mp hx with rfl | hx
        · exact Nat.le_of_not_le hlt
        · exact Nat.le_trans (Nat.le_of_not_le hlt) (hy x hx)

theorem Ordered.scheduleAll {agenda : Agenda} (h : agenda.Ordered) (start : Instant)
    (events : List (Span × Event)) : (agenda.scheduleAll start events).Ordered := by
  induction events generalizing agenda with
  | nil => exact h
  | cons e rest ih => exact ih (h.schedule (start + e.1) e.2)

theorem Ordered.suffix {a b : Agenda} (h : b.Ordered) (hs : a <:+ b) : a.Ordered :=
  h.sublist hs.sublist

theorem mem_dropWhile_of_lt {agenda : Agenda} {now : Instant} {x : Instant × Event}
    (hx : x ∈ agenda) (hlate : now < x.1) : x ∈ agenda.dropWhile fun e => decide (e.1 ≤ now) := by
  induction agenda with
  | nil => cases hx
  | cons y rest ih =>
      rw [List.dropWhile_cons]
      split
      · rename_i hdue
        rcases List.mem_cons.mp hx with rfl | hx
        · exact absurd (of_decide_eq_true hdue) (Nat.not_le_of_lt hlate)
        · exact ih hx
      · exact hx

theorem Ordered.lt_of_mem_dropWhile {agenda : Agenda} (h : agenda.Ordered) {now : Instant}
    {x : Instant × Event} (hx : x ∈ agenda.dropWhile fun e => decide (e.1 ≤ now)) :
    now < x.1 := by
  induction agenda with
  | nil => cases hx
  | cons y rest ih =>
      obtain ⟨hy, hrest⟩ := List.pairwise_cons.mp h
      rw [List.dropWhile_cons] at hx
      split at hx
      · exact ih hrest hx
      · rename_i hlate
        have hfirst : now < y.1 := by simpa using hlate
        rcases List.mem_cons.mp hx with rfl | hx
        · exact hfirst
        · exact Nat.lt_of_lt_of_le hfirst (hy x hx)

theorem foldl_min_le (agenda : Agenda) (n : Instant) :
    agenda.foldl (fun n x => min n x.1) n ≤ n ∧
      ∀ x ∈ agenda, agenda.foldl (fun n x => min n x.1) n ≤ x.1 := by
  induction agenda generalizing n with
  | nil => simp
  | cons y rest ih =>
      obtain ⟨hfirst, hrest⟩ := ih (min n y.1)
      refine ⟨Nat.le_trans hfirst (Nat.min_le_left n y.1), ?_⟩
      intro x hx
      rcases List.mem_cons.mp hx with rfl | hx
      · exact Nat.le_trans hfirst (Nat.min_le_right n x.1)
      · exact hrest x hx

theorem foldl_min_mono {n m : Instant} (h : m ≤ n) (agenda : Agenda) :
    agenda.foldl (fun n x => min n x.1) m ≤ agenda.foldl (fun n x => min n x.1) n := by
  induction agenda generalizing n m with
  | nil => exact h
  | cons x rest ih => exact ih (Nat.le_min.mpr ⟨Nat.le_trans (Nat.min_le_left ..) h,
      Nat.min_le_right ..⟩)

theorem of_foldl_min_le {agenda : Agenda} {n now : Instant}
    (h : agenda.foldl (fun n x => min n x.1) n ≤ now) : n ≤ now ∨ ∃ x ∈ agenda, x.1 ≤ now := by
  induction agenda generalizing n with
  | nil => exact .inl h
  | cons x rest ih =>
      rw [List.foldl_cons] at h
      rcases ih h with hfirst | ⟨y, hy, hdue⟩
      · rcases Nat.le_total n x.1 with hle | hle
        · rw [Nat.min_eq_left hle] at hfirst
          exact .inl hfirst
        · rw [Nat.min_eq_right hle] at hfirst
          exact .inr ⟨x, List.mem_cons_self, hfirst⟩
      · exact .inr ⟨y, List.mem_cons_of_mem _ hy, hdue⟩

theorem length_dropWhile_lt {agenda : Agenda} (h : agenda.Ordered) {now : Instant}
    {x : Instant × Event} (hx : x ∈ agenda) (hdue : x.1 ≤ now) :
    (agenda.dropWhile fun e => decide (e.1 ≤ now)).length < agenda.length := by
  cases agenda with
  | nil => cases hx
  | cons y rest =>
      have hy : y.1 ≤ now := by
        rcases List.mem_cons.mp hx with rfl | hx
        · exact hdue
        · exact Nat.le_trans ((List.pairwise_cons.mp h).1 x hx) hdue
      rw [List.dropWhile_cons_of_pos (by simpa using hy), List.length_cons]
      exact Nat.lt_succ_of_le (List.dropWhile_sublist _).length_le

end Agenda

end InbandTrace
