import InbandTrace.Echo.Message
import InbandTrace.Proofs.Log.Lines
import InbandTrace.Proofs.Trace.Ending
import InbandTrace.Proofs.Trace.Outcome

namespace InbandTrace

open Json

/-- The value of the member with a key that no other member has. -/
def Json.Value.member? (key : String) : Value → Option Value
  | .object members => EchoMessage.single? key members
  | _ => none

theorem TraceRecord.member?_toJson (r : TraceRecord) :
    r.toJson.member? "error" = r.error.map Value.ofString ∧
      r.toJson.member? "uuid" = some (Value.ofString r.result.sessionId) ∧
      r.toJson.member? "ip" = some r.result.target.toJson ∧
      r.toJson.member? "hops" = some (.array (r.result.hops.map Hop.toJson)) ∧
      r.toJson.member? "completed" = some (.bool r.result.completed) ∧
      r.toJson.member? "reached" = some (.bool r.result.reached) := by
  cases herror : r.error <;>
    simp [toJson, Value.member?, EchoMessage.single?, Value.member, Value.optionalMember, herror]

theorem TraceResult.member?_toJson (r : TraceResult) :
    r.toJson.member? "session_id" = some (Value.ofString r.sessionId) ∧
      r.toJson.member? "target" = some r.target.toJson ∧
      r.toJson.member? "hops" = some (.array (r.hops.map Hop.toJson)) ∧
      r.toJson.member? "completed" = some (.bool r.completed) ∧
      r.toJson.member? "reached" = some (.bool r.reached) := by
  simp [toJson, Value.member?, EchoMessage.single?, Value.member]

theorem Report.member?_toJson (r : Report) :
    r.toJson.member? "error" = r.error.map Value.ofString ∧
      r.toJson.member? "result" = r.result.map TraceResult.toJson := by
  cases herror : r.error <;> cases hresult : r.result <;>
    simp [toJson, Value.member?, EchoMessage.single?, Value.member, Value.optionalMember, herror,
      hresult]

structure Report.Matches (outcome : Except TraceError TraceResult) (report line : Value) : Prop where
  error : (report.member? "error").isSome ↔ (line.member? "error").isSome
  result : (report.member? "result").isSome ↔ ∀ reason, outcome ≠ .error (.config reason)
  same : ∀ result, report.member? "result" = some result →
    ∃ id target hops completed reached,
      result.member? "session_id" = some id ∧ line.member? "uuid" = some id ∧
      result.member? "target" = some target ∧ line.member? "ip" = some target ∧
      result.member? "hops" = some (.array hops) ∧ line.member? "hops" = some (.array hops) ∧
      result.member? "completed" = some completed ∧ line.member? "completed" = some completed ∧
      result.member? "reached" = some reached ∧ line.member? "reached" = some reached
  config : (∃ reason, outcome = .error (.config reason)) →
    line.member? "hops" = some (.array []) ∧ line.member? "completed" = some (.bool false) ∧
      line.member? "reached" = some (.bool false)
  closed : ∀ r, outcome = .error (.connectionClosed r) →
    ∃ hops, line.member? "hops" = some (.array hops) ∧
      report.member? "error" = some (Value.ofString
        ("connection closed after " ++ Text.number hops.length ++ " hops"))
  cancelled : ∀ r, outcome = .error (.cancelled r) →
    ∃ hops, line.member? "hops" = some (.array hops) ∧
      report.member? "error" = some (Value.ofString
        ("trace cancelled after " ++ Text.number hops.length ++ " hops"))

namespace Report

theorem same_of_result {outcome : Except TraceError TraceResult} {r : TraceResult}
    (hr : (ofOutcome outcome).result = some r) (error : Option String) :
    ∀ result, (ofOutcome outcome).toJson.member? "result" = some result →
      ∃ id target hops completed reached,
        result.member? "session_id" = some id ∧
        (TraceRecord.toJson ⟨r, error⟩).member? "uuid" = some id ∧
        result.member? "target" = some target ∧
        (TraceRecord.toJson ⟨r, error⟩).member? "ip" = some target ∧
        result.member? "hops" = some (.array hops) ∧
        (TraceRecord.toJson ⟨r, error⟩).member? "hops" = some (.array hops) ∧
        result.member? "completed" = some completed ∧
        (TraceRecord.toJson ⟨r, error⟩).member? "completed" = some completed ∧
        result.member? "reached" = some reached ∧
        (TraceRecord.toJson ⟨r, error⟩).member? "reached" = some reached := by
  intro result hresult
  rw [(member?_toJson _).2, hr] at hresult
  cases hresult
  obtain ⟨-, hid, hip, hhops, hcompleted, hreached⟩ := TraceRecord.member?_toJson ⟨r, error⟩
  obtain ⟨hid', htarget', hhops', hcompleted', hreached'⟩ := r.member?_toJson
  exact ⟨_, _, _, _, _, hid', hid, htarget', hip, hhops', hhops, hcompleted', hcompleted, hreached',
    hreached⟩

theorem matches_of_ended {c : Config} {outcome : Except TraceError TraceResult}
    {record : TraceRecord} (h : Ended c outcome record) :
    Matches outcome (ofOutcome outcome).toJson record.toJson := by
  obtain ⟨herror, hresult⟩ := (ofOutcome outcome).member?_toJson
  obtain ⟨herror', -, -, hhops, hcompleted, hreached⟩ := record.member?_toJson
  cases h with
  | @complete r h =>
      refine ⟨?_, ?_, same_of_result rfl none, nofun, nofun, nofun⟩
      · rw [herror, herror']
        exact Iff.rfl
      · rw [hresult]
        simp [ofOutcome]
  | @closed r h =>
      refine ⟨?_, ?_, same_of_result rfl _, nofun, fun r' hr => ?_, nofun⟩
      · rw [herror, herror']
        simp [ofOutcome]
      · rw [hresult]
        simp [ofOutcome, TraceError.partial?]
      · cases hr
        refine ⟨_, hhops, ?_⟩
        rw [herror, List.length_map]
        rfl
  | @cancelled r h =>
      refine ⟨?_, ?_, same_of_result rfl _, nofun, nofun, fun r' hr => ?_⟩
      · rw [herror, herror']
        simp [ofOutcome]
      · rw [hresult]
        simp [ofOutcome, TraceError.partial?]
      · cases hr
        refine ⟨_, hhops, ?_⟩
        rw [herror, List.length_map]
        rfl
  | config h hnone =>
      refine ⟨?_, ?_, fun result hr => ?_, fun _ => ?_, nofun, nofun⟩
      · rw [herror, herror']
        simp [ofOutcome]
      · rw [hresult]
        simp [ofOutcome, TraceError.partial?]
      · rw [hresult] at hr
        cases hr
      · rw [hhops, hcompleted, hreached, hnone, h.completed, h.reached]
        exact ⟨rfl, rfl, rfl⟩

end Report

namespace Engine

def logged (e : Engine) (log : Writer) : Writer := e.records.foldl Writer.recordTrace log

theorem logged_of_records {e e' : Engine} {record : TraceRecord}
    (h : e'.records = e.records ++ [record]) (log : Writer) :
    e'.logged log = (e.logged log).recordTrace record := by
  simp [logged, h]

theorem room_logged {log : Writer} (h : log.room = none) (e : Engine) :
    (e.logged log).room = none := by
  unfold logged
  induction e.records generalizing log with
  | nil => exact h
  | cons record rest ih => exact ih (Writer.append_room h record.toJson)

/-- The line is written to a log without a limit, and to any other in which it still fits. -/
theorem bytes_logged {e e' : Engine} {record : TraceRecord}
    (h : e'.records = e.records ++ [record]) {log : Writer}
    (hroom : log.room = none ∨
      (e.logged log).Takes (Text.utf8 (record.toJson.text ++ ['\n'])).length) :
    (e'.logged log).bytes =
      (e.logged log).bytes ++ Text.utf8 (record.toJson.text ++ ['\n']) := by
  have htakes : (e.logged log).Takes ((Text.utf8 (Writer.line record.toJson)).length + 0) := by
    rcases hroom with hnone | htakes
    · intro room hsome
      rw [room_logged hnone] at hsome
      cases hsome
    · exact htakes
  rw [logged_of_records h]
  exact (Writer.append_of_takes htakes).1

/-- Every trace comes to an end, and however traces take turns, the step that ends one appends the
line that agrees with what its client is told. -/
theorem report_of_run (e : Engine) (history : List Registry.Operation) (now : Instant)
    (setups : List Trace.Setup) (log : Writer) :
    let start := (e.withHistory history).fleet now setups
    let final := (e.withHistory history).run now (setups.map fun s => s.start now)
    Relation.ReflTransGen Fleet.Step start final ∧
    (∀ i < setups.length, (final.outcomeAt? i).isSome) ∧
    ∀ f, Relation.ReflTransGen Fleet.Step start f → ∀ i outcome, f.outcomeAt? i = some outcome →
      ∃ record before after,
        Relation.ReflTransGen Fleet.Step start before ∧ before.outcomeAt? i = none ∧
        Fleet.Step before after ∧ after.outcomeAt? i = some outcome ∧
        Relation.ReflTransGen Fleet.Step after f ∧
        after.engine.logged log = (before.engine.logged log).recordTrace record ∧
        (log.room = none ∨ (before.engine.logged log).Takes
            (Text.utf8 (record.toJson.text ++ ['\n'])).length →
          (after.engine.logged log).bytes =
            (before.engine.logged log).bytes ++ Text.utf8 (record.toJson.text ++ ['\n'])) ∧
        Report.Matches outcome (Report.ofOutcome outcome).toJson record.toJson := by
  intro start final
  have hreach : Relation.ReflTransGen Fleet.Step start final := Fleet.reaches_run start
  have hlength : start.traces.length = setups.length := by simp [start, fleet]
  refine ⟨hreach, fun i hi => ?_, fun f hf i outcome hend => ?_⟩
  · have hfinal : i < final.traces.length := by
      rw [Fleet.length_reaches hreach, hlength]
      exact hi
    obtain ⟨outcome, hout⟩ :=
      Fleet.exists_outcome (e.isFinished_run history now setups) (List.getElem_mem hfinal)
    simp [Fleet.outcomeAt?, List.getElem?_eq_getElem hfinal, hout]
  · obtain ⟨t, ht, -⟩ := Option.bind_eq_some_iff.mp hend
    have hi : i < setups.length := by
      rw [← hlength, ← Fleet.length_reaches hf]
      exact (List.getElem?_eq_some_iff.mp ht).1
    have hopen : start.outcomeAt? i = none := by
      simp [Fleet.outcomeAt?, start, fleet, List.getElem?_eq_getElem hi, Trace.Setup.start,
        Trace.outcome?]
    obtain ⟨before, after, hbefore, hstep, hafter, hnone, hsome⟩ := Fleet.exists_ending hf hopen hend
    have hplace : i < before.traces.length := by
      rw [Fleet.length_reaches hbefore, hlength]
      exact hi
    obtain ⟨record, hrecords, hended⟩ :=
      hstep.logged ((e.valid_fleet history now setups).reaches hbefore).1 hplace hnone hsome
    exact ⟨record, before, after, hbefore, hnone, hstep, hsome, hafter,
      logged_of_records hrecords log, bytes_logged hrecords, Report.matches_of_ended hended⟩

end Engine

end InbandTrace
