import InbandTrace.Proofs.Trace.Deadline
import Mathlib.Data.List.Induction

namespace InbandTrace

theorem Registry.arrival_of_holding {r : Registry} {n : Nat} {token : Token}
    (h : r.Assigned n fun e => e.token = token)
    (hempty : ∀ hop, r.mailbox? n ≠ some (.holding hop)) {ops : List Operation} {hop : Hop}
    (hbox : (r.after ops).mailbox? n = some (.holding hop)) :
    ∃ op ∈ ops, ∃ a at_, op.arrival? = some a ∧ a.token = token ∧ hop = a.hop hop.ttl at_ := by
  induction ops using List.reverseRecOn with
  | nil => exact absurd hbox (hempty hop)
  | append_singleton ops op ih =>
      have hkeeps : ∀ op : Operation, op.Keeps fun e => e.token = token := by
        intro op
        cases op with
        | restamp token' s d => exact fun e _ hq => hq
        | _ => trivial
      rw [after_append] at hbox
      rcases holding_apply hbox with hold | ⟨a, ha, e, he, hn, htoken, rfl⟩
      · obtain ⟨op', hmem, harrival⟩ := ih hold
        exact ⟨op', List.mem_append_left _ hmem, harrival⟩
      · have hown := (h.after fun op' _ => hkeeps op').entry e he hn
        exact ⟨op, List.mem_append_right _ (List.mem_singleton_self op), a, e.sentAt, ha,
          htoken.symm.trans hown, rfl⟩

namespace Fleet

def Since (f g : Fleet) (op : Registry.Operation) : Prop :=
  ∃ (i : Nat) (t u : Trace) (es : Agenda), f.traces[i]? = some t ∧ g.traces[i]? = some u ∧
    u.connection.happened = t.connection.happened ++ es ∧ op ∈ es.operations

/-- What has come of the events on all connections between two states. Replies reach the registry in
no other way. -/
structure Elapsed (f g : Fleet) : Prop where
  length : g.traces.length = f.traces.length
  grown : ∀ (i : Nat) (t : Trace), f.traces[i]? = some t → ∃ (u : Trace) (es : Agenda),
    g.traces[i]? = some u ∧ u.connection.happened = t.connection.happened ++ es
  registry : ∃ ops, g.engine.registry = f.engine.registry.after ops ∧
    ∀ op ∈ ops, op.arrival? = none ∨ f.Since g op

namespace Elapsed

variable {f g k : Fleet}

theorem refl (f : Fleet) : Elapsed f f :=
  ⟨rfl, fun _ t ht => ⟨t, [], ht, (List.append_nil _).symm⟩, [], rfl, nofun⟩

theorem of_step {c : Config}
    (hf : f.Each fun _ now e t => t.OnCourse c t.connection.behaviour now e) (hs : Step f g) :
    Elapsed f g := by
  cases hs with
  | wait hidle hw => exact ⟨rfl, (refl f).grown, [], rfl, nofun⟩
  | @act j hready =>
      obtain ⟨t, ht, -⟩ := exists_trace_of_ready hready
      obtain ⟨-, he, htraces⟩ := act_eq ht
      have hcourse := hf j t ht
      obtain ⟨es, hc⟩ := Trace.course_turn f.now hcourse.valid.standing
      have hhappened : (t.step f.now f.engine).1.connection.happened =
          t.connection.happened ++ es := (hc.kept hcourse.kept).2
      have hown : (f.act j).traces[j]? = some (t.step f.now f.engine).1 := by
        rw [htraces]
        exact List.getElem?_set_self (List.getElem?_eq_some_iff.mp ht).1
      refine ⟨by rw [htraces, List.length_set], ?_, ?_⟩
      · intro i u hu
        by_cases hi : i = j
        · subst hi
          cases hu.symm.trans ht
          exact ⟨_, es, hown, hhappened⟩
        · refine ⟨u, [], ?_, (List.append_nil _).symm⟩
          rw [htraces, List.getElem?_set_ne (Ne.symm hi), hu]
      · have hcustody := hc.custody (P := fun _ => True) fun _ _ _ _ => trivial
        obtain ⟨ops, hops, hafter⟩ := hcustody.exists_after
          (Q := fun op => op.arrival? = none ∨ f.Since (f.act j) op)
          (fun op hop => .inr ⟨j, t, _, es, ht, hown, hhappened, hop⟩)
          (fun _ _ _ _ _ => .inl rfl) (fun _ => .inl rfl) (fun _ => .inl rfl) fun _ => .inl rfl
        exact ⟨ops, he ▸ hafter, hops⟩

theorem trans (h : Elapsed f g) (h' : Elapsed g k) : Elapsed f k := by
  refine ⟨h'.length.trans h.length, ?_, ?_⟩
  · intro i t ht
    obtain ⟨u, es, hu, hes⟩ := h.grown i t ht
    obtain ⟨v, es', hv, hes'⟩ := h'.grown i u hu
    exact ⟨v, es ++ es', hv, by rw [hes', hes, List.append_assoc]⟩
  · obtain ⟨ops, hafter, hops⟩ := h.registry
    obtain ⟨ops', hafter', hops'⟩ := h'.registry
    refine ⟨ops ++ ops', by rw [hafter', hafter, Registry.after_append], fun op hop => ?_⟩
    rcases List.mem_append.mp hop with hop | hop
    · refine (hops op hop).imp_right ?_
      rintro ⟨i, t, u, es, ht, hu, hes, hin⟩
      obtain ⟨v, es', hv, hes'⟩ := h'.grown i u hu
      refine ⟨i, t, v, es ++ es', ht, hv, by rw [hes', hes, List.append_assoc], ?_⟩
      rw [Agenda.operations_append]
      exact List.mem_append_left _ hin
    · refine (hops' op hop).imp_right ?_
      rintro ⟨i, u, v, es', hu, hv, hes', hin⟩
      have hi : i < f.traces.length := h.length ▸ (List.getElem?_eq_some_iff.mp hu).1
      obtain ⟨u', es, hu', hes⟩ := h.grown i _ (List.getElem?_eq_getElem hi)
      cases hu.symm.trans hu'
      refine ⟨i, _, v, es ++ es', List.getElem?_eq_getElem hi, hv, ?_, ?_⟩
      · rw [hes', hes, List.append_assoc]
      · rw [Agenda.operations_append]
        exact List.mem_append_right _ hin

end Elapsed

end Fleet

end InbandTrace
