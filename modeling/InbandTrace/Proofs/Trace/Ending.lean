import InbandTrace.Proofs.Trace.Beside

namespace InbandTrace

namespace Fleet

def outcomeAt? (f : Fleet) (i : Nat) : Option (Except TraceError TraceResult) :=
  f.traces[i]?.bind Trace.outcome?

variable {f g : Fleet} {i : Nat} {outcome : Except TraceError TraceResult}

theorem Step.logged (hs : Step f g) (hf : f.Valid) (hi : i < f.traces.length)
    (hopen : f.outcomeAt? i = none) (hend : g.outcomeAt? i = some outcome) :
    ∃ record, g.engine.records = f.engine.records ++ [record] ∧
      Ended f.engine.config outcome record := by
  have ht : f.traces[i]? = some f.traces[i] := List.getElem?_eq_getElem hi
  obtain ⟨u, hu, hseen⟩ := hs.seen ht
  simp only [outcomeAt?, ht, hu, Option.bind_some] at hopen hend
  cases hseen with
  | turn hready hnow he =>
      have hvalid := hf.traces _ (List.getElem_mem hi)
      have hint := (Trace.move_turn f.now hvalid.standing).intact hf.sound hvalid.standing
        hvalid.sweeping fun o at_ hphase => by simp [Trace.outcome?, hphase] at hopen
      have hlog := hint.logged
      unfold World.Logged at hlog
      rw [Trace.outcome?] at hend
      split at hend
      · rename_i o at_ hphase
        cases hend
        rw [show (f.traces[i].turn f.now f.engine).1 = _ from hphase] at hlog
        rw [he]
        exact hlog
      · cases hend
  | other hne hj hready hnow he =>
      rw [hopen] at hend
      cases hend
  | wait hidle hwake hnow he =>
      rw [hopen] at hend
      cases hend

theorem Step.outcomeAt?_of_some (hs : Step f g) (h : f.outcomeAt? i = some outcome) :
    g.outcomeAt? i = some outcome := by
  obtain ⟨t, ht, hout⟩ := Option.bind_eq_some_iff.mp h
  obtain ⟨u, hu, hseen⟩ := hs.seen ht
  refine Option.bind_eq_some_iff.mpr ⟨u, hu, ?_⟩
  cases hseen with
  | turn hready hnow he =>
      unfold Trace.outcome? at hout
      split at hout
      · rename_i o at_ hphase
        simp [Trace.ready, hphase] at hready
      · cases hout
  | other hne hj hready hnow he => exact hout
  | wait hidle hwake hnow he => exact hout

theorem exists_ending (hr : Relation.ReflTransGen Step f g) (hopen : f.outcomeAt? i = none)
    (hend : g.outcomeAt? i = some outcome) :
    ∃ before after, Relation.ReflTransGen Step f before ∧ Step before after ∧
      Relation.ReflTransGen Step after g ∧ before.outcomeAt? i = none ∧
      after.outcomeAt? i = some outcome := by
  induction hr with
  | refl =>
      rw [hopen] at hend
      cases hend
  | @tail b c hb hstep ih =>
      cases hout : b.outcomeAt? i with
      | none => exact ⟨b, c, hb, hstep, .refl, hout, hend⟩
      | some outcome' =>
          cases hend.symm.trans (hstep.outcomeAt?_of_some hout)
          obtain ⟨before, after, hbefore, hlast, hafter, hnone, hsome⟩ := ih hout
          exact ⟨before, after, hbefore, hlast, hafter.tail hstep, hnone, hsome⟩

end Fleet

end InbandTrace
