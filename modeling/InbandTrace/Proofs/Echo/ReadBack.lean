import InbandTrace.Echo.Channel
import InbandTrace.Proofs.Json.RoundTrip
import InbandTrace.Proofs.Json.Short
import InbandTrace.Proofs.Log.Report

namespace InbandTrace

open Json

namespace EchoRecord

variable (r : EchoRecord)

theorem numbers_toJson : r.toJson.numbers = r.message.numbers := by
  simp [toJson, Value.member, Value.ofString, Net.Ip.toJson, Value.numbers]

theorem nesting_toJson : r.toJson.nesting = r.message.nesting + 1 := by
  simp [toJson, Value.member, Value.ofString, Net.Ip.toJson, Value.nesting, Value.membersNesting]

theorem mapNumbers_toJson (f : Number → Number) :
    r.toJson.mapNumbers f = toJson { r with message := r.message.mapNumbers f } := by
  simp [toJson, Value.member, Value.ofString, Net.Ip.toJson, Value.mapNumbers]

theorem normal_toJson : r.toJson.normal = .object
    [Value.member "ip" r.ip.toJson, Value.member "message" r.message.normal,
      Value.member "timestamp" (.string r.at_.logText),
      Value.member "type" (Value.ofString "ws-final")] := by
  rw [toJson, Value.normal_object]
  simp [Value.insertMember, Value.keyBefore, Value.member, Value.ofString, Net.Ip.toJson, Value.normal]

theorem member?_normal_toJson : r.toJson.normal.member? "message" = some r.message.normal := by
  rw [normal_toJson]
  simp [Value.member?, EchoMessage.single?, Value.member]

theorem ofText?_line (h : ∀ x ∈ r.message.numbers, x.Regular) :
    Value.ofText? (Writer.line r.toJson) = if r.message.nesting < maxNesting then
      some (toJson { r with message := r.message.mapNumbers Number.reread }).normal else none := by
  have hnumbers : ∀ x ∈ r.toJson.numbers, x.Regular := by
    rw [numbers_toJson]
    exact h
  have hline : Stops ['\n'] := stops_cons [] rfl (by decide)
  rw [Value.ofText?, Writer.line, Value.ofTextInOrder?_text hnumbers hline rfl, nesting_toJson,
    mapNumbers_toJson]
  by_cases hdeep : r.message.nesting < maxNesting
  · rw [if_pos (Nat.succ_le_of_lt hdeep), if_pos hdeep]
    rfl
  · rw [if_neg (fun hle => hdeep (Nat.lt_of_succ_le hle)), if_neg hdeep]
    rfl

end EchoRecord

namespace EchoChannel

theorem log_send (c : EchoChannel) (frame : Outgoing) : (c.send frame).log = c.log := by
  unfold send
  split <;> rfl

theorem log_receive_of_final {c : EchoChannel} {now : Timestamp} {m : Incoming} {v : Value}
    {id : List Char} {latencies : List Binary64} (hopen : c.isOpen = true)
    (hm : understand? m = some (v, .final id latencies)) (hid : (Uuid.ofText id).toOption.isSome) :
    (c.receive now m).log = (c.log.append (EchoRecord.toJson ⟨c.client, now, v⟩)).2 := by
  have hlogged : (c.logMessage now v (.final id latencies)).log =
      (c.log.append (EchoRecord.toJson ⟨c.client, now, v⟩)).2 := by
    have hfinal : isLogged (.final id latencies) = true := hid
    rw [logMessage, if_pos hfinal]
  cases m with
  | text s => simp [receive, hopen, breaks, answer, hm, log_send, hlogged]
  | binary data => simp [receive, hopen, breaks, answer, hm, log_send, hlogged]
  | ping payload => cases hm
  | pong payload => cases hm
  | close => cases hm
  | broken fault => cases hm

theorem normal_of_understand? {m : Incoming} {v : Value} {message : EchoMessage}
    (h : understand? m = some (v, message)) : v.normal = v ∧ ∀ x ∈ v.numbers, x.Regular := by
  obtain ⟨s, -, hs⟩ := Option.bind_eq_some_iff.mp h
  obtain ⟨w, hw, hmessage⟩ := Option.bind_eq_some_iff.mp hs
  obtain ⟨message, -, hsame⟩ := Option.bind_eq_some_iff.mp hmessage
  cases hsame
  exact Value.normal_of_ofText? hw

theorem ofText?_line_of_understand? {m : Incoming} {v : Value} {message : EchoMessage}
    (h : understand? m = some (v, message)) (client : Net.Ip) (now : Timestamp) :
    (Value.ofText? (Writer.line (EchoRecord.toJson ⟨client, now, v⟩))).map
        (Value.member? "message") =
      if v.nesting < maxNesting then some (some (v.mapNumbers Number.reread)) else none := by
  obtain ⟨hnormal, hregular⟩ := normal_of_understand? h
  rw [EchoRecord.ofText?_line ⟨client, now, v⟩ hregular]
  dsimp only
  split
  · rw [Option.map_some, EchoRecord.member?_normal_toJson, Value.normal_mapNumbers, hnormal]
  · rfl

theorem mapNumbers_reread_iff {v : Value} (h : ∀ x ∈ v.numbers, x.Regular) :
    v.mapNumbers Number.reread = v ↔
      ∀ x, .float x ∈ v.numbers → Number.reread (.float x) = .float x := by
  rw [Value.mapNumbers_eq_self_iff]
  refine ⟨fun hall x hx => hall _ hx, fun hall x hx => ?_⟩
  cases x with
  | natural n => exact Number.reread_natural n
  | negative n => exact Number.reread_negative (h _ hx)
  | float x => exact hall x hx

theorem ofText?_line_of_short {m : Incoming} {v : Value} {message : EchoMessage}
    (h : understand? m = some (v, message)) (hnesting : v.nesting < maxNesting)
    (hshort : ∀ x, .float x ∈ v.numbers → x.Short) (client : Net.Ip) (now : Timestamp) :
    ∃ w, Value.ofText? (Writer.line (EchoRecord.toJson ⟨client, now, v⟩)) = some w ∧
      w.member? "message" = some v := by
  have hregular := (normal_of_understand? h).2
  have hsame : v.mapNumbers Number.reread = v :=
    (mapNumbers_reread_iff hregular).mpr fun x hx =>
      Number.reread_of_short (hregular _ hx) (hshort x hx)
  have hline := ofText?_line_of_understand? h client now
  rw [if_pos hnesting, hsame] at hline
  exact Option.map_eq_some_iff.mp hline

/-- The line that a final message leaves in the log can be read back unless the message is as deep as
a message can be, and what is read is the message but for doubles that their own text does not
denote. -/
theorem line_of_final (c : EchoChannel) (now : Timestamp) (m : Incoming) (v : Value)
    (id : List Char) (latencies : List Binary64) (hopen : c.isOpen = true)
    (hm : understand? m = some (v, .final id latencies)) (hid : (Uuid.ofText id).toOption.isSome) :
    let line := Writer.line (EchoRecord.toJson ⟨c.client, now, v⟩)
    (c.log.room = none → (c.receive now m).log.bytes = c.log.bytes ++ Text.utf8 line) ∧
    ((Value.ofText? line).isSome ↔ v.nesting < maxNesting) ∧
    (∀ w, Value.ofText? line = some w →
      w.member? "message" = some (v.mapNumbers Number.reread)) ∧
    ((∃ w, Value.ofText? line = some w ∧ w.member? "message" = some v) ↔
      v.nesting < maxNesting ∧
        ∀ x, .float x ∈ v.numbers → Number.reread (.float x) = .float x) := by
  intro line
  have hline := ofText?_line_of_understand? hm c.client now
  have hnumbers := mapNumbers_reread_iff (normal_of_understand? hm).2
  have hread : (Value.ofText? line).isSome ↔ v.nesting < maxNesting := by
    rw [← Option.isSome_map (f := Value.member? "message"), hline]
    split <;> rename_i hdeep <;> simp [hdeep]
  have hmessage : ∀ w, Value.ofText? line = some w →
      w.member? "message" = some (v.mapNumbers Number.reread) := by
    intro w hw
    rw [if_pos (hread.mp (Option.isSome_iff_exists.mpr ⟨w, hw⟩)), show Value.ofText? _ = some w from hw]
      at hline
    exact Option.some.inj hline
  refine ⟨fun hroom => ?_, hread, hmessage, ?_⟩
  · rw [log_receive_of_final hopen hm hid]
    exact Writer.append_bytes hroom _
  · rw [← hread, ← hnumbers, Option.isSome_iff_exists]
    constructor
    · rintro ⟨w, hw, hv⟩
      exact ⟨⟨w, hw⟩, Option.some.inj ((hmessage w hw).symm.trans hv)⟩
    · rintro ⟨⟨w, hw⟩, hv⟩
      exact ⟨w, hw, (hmessage w hw).trans (congrArg some hv)⟩

def finalText (latencies : String) (more : List Char) : List Char :=
  "\x7b\"type\":\"ws-final\",\"UUID\":\"6f1c2b1e-8f2a-4c55-9d1e-3a0f6b7c8d9e\",\"latencies\":".toList ++
    latencies.toList ++ more ++ ['\x7d']

def nestedText (depth : Nat) : List Char :=
  ",\"more\":".toList ++ List.replicate depth '[' ++ List.replicate depth ']'

def finalOf? (s : List Char) : Option (Nat × List Number) :=
  match understand? (.text s) with
  | some (v, .final id _) =>
      if (Uuid.ofText id).toOption.isSome then some (v.nesting, v.numbers) else none
  | _ => none

theorem exists_of_finalOf? {s : List Char} {n : Nat} {xs : List Number}
    (h : finalOf? s = some (n, xs)) : ∃ v id latencies,
      understand? (.text s) = some (v, .final id latencies) ∧
        (Uuid.ofText id).toOption.isSome ∧ v.nesting = n ∧ v.numbers = xs := by
  unfold finalOf? at h
  split at h
  · rename_i v id latencies hv
    split at h
    · rename_i hid
      cases h
      exact ⟨v, id, latencies, hv, hid, rfl, rfl⟩
    · cases h
  · cases h

theorem finalOf?_nested : finalOf? (finalText "[12.5,3]" (nestedText 125)) =
      some (126, [.float (.finite false 7036874417766400 1025), .natural 3]) ∧
    finalOf? (finalText "[12.5,3]" (nestedText 126)) =
      some (127, [.float (.finite false 7036874417766400 1025), .natural 3]) := by
  decide +kernel

theorem reread_half :
    Number.reread (.float (.finite false 7036874417766400 1025)) =
      .float (.finite false 7036874417766400 1025) := by
  decide +kernel

theorem line_of_final_kept :
    let c : EchoChannel := { client := .v4 ⟨192, 0, 2, 9⟩ }
    let m : Incoming := .text (finalText "[12.5,3]" (nestedText 125))
    ∃ v id latencies w, understand? m = some (v, .final id latencies) ∧
      Value.ofText? (Writer.line (EchoRecord.toJson ⟨c.client, ⟨0, 0⟩, v⟩)) = some w ∧
      w.member? "message" = some v := by
  intro c m
  obtain ⟨v, id, latencies, hm, hid, hnesting, hnumbers⟩ := exists_of_finalOf? finalOf?_nested.1
  obtain ⟨-, -, -, hkept⟩ := line_of_final c ⟨0, 0⟩ m v id latencies rfl hm hid
  have hfloats : ∀ x, .float x ∈ v.numbers → Number.reread (.float x) = .float x := by
    intro x hx
    rw [hnumbers] at hx
    simp only [List.mem_cons, Number.float.injEq, reduceCtorEq, List.not_mem_nil, or_false] at hx
    rw [hx, reread_half]
  obtain ⟨w, hw, hv⟩ := hkept.mpr ⟨by rw [hnesting]; decide, hfloats⟩
  exact ⟨v, id, latencies, w, hm, hw, hv⟩

theorem line_of_final_lost :
    let c : EchoChannel := { client := .v4 ⟨192, 0, 2, 9⟩ }
    (∃ v id latencies,
      understand? (.text (finalText "[12.5,3]" (nestedText 126))) = some (v, .final id latencies) ∧
        (Uuid.ofText id).toOption.isSome ∧
        Value.ofText? (Writer.line (EchoRecord.toJson ⟨c.client, ⟨0, 0⟩, v⟩)) = none) ∧
    ∃ v id latencies w,
      understand? (.text (finalText "[9.081873045805206]" [])) = some (v, .final id latencies) ∧
        (Uuid.ofText id).toOption.isSome ∧
        Value.ofText? (Writer.line (EchoRecord.toJson ⟨c.client, ⟨0, 0⟩, v⟩)) = some w ∧
        w.member? "message" ≠ some v := by
  intro c
  constructor
  · obtain ⟨v, id, latencies, hm, hid, hnesting, -⟩ := exists_of_finalOf? finalOf?_nested.2
    have hline := ofText?_line_of_understand? hm c.client ⟨0, 0⟩
    rw [if_neg (by rw [hnesting]; decide)] at hline
    exact ⟨v, id, latencies, hm, hid, Option.map_eq_none_iff.mp hline⟩
  · have hfinal : finalOf? (finalText "[9.081873045805206]" []) =
        some (2, [.float (.finite false 5112640008114310 1025)]) := by
      decide +kernel
    have hneighbour : Number.reread (.float (.finite false 5112640008114310 1025)) ≠
        .float (.finite false 5112640008114310 1025) := by
      decide +kernel
    obtain ⟨v, id, latencies, hm, hid, hnesting, hnumbers⟩ := exists_of_finalOf? hfinal
    have hline := ofText?_line_of_understand? hm c.client ⟨0, 0⟩
    rw [if_pos (by rw [hnesting]; decide)] at hline
    obtain ⟨w, hw, hmessage⟩ := Option.map_eq_some_iff.mp hline
    refine ⟨v, id, latencies, w, hm, hid, hw, fun hv => hneighbour ?_⟩
    have hsame : v.mapNumbers Number.reread = v := Option.some.inj (hmessage.symm.trans hv)
    exact Value.mapNumbers_eq_self_iff.mp hsame _ (by rw [hnumbers]; exact List.mem_singleton_self _)

end EchoChannel

end InbandTrace
