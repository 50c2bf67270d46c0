import InbandTrace.Log.Lines

namespace InbandTrace

namespace Text

theorem newline_notMem_decimal (n : Nat) : '\n' ∉ decimal n := by
  intro h
  have hdigit := Nat.isDigit_of_mem_toDigits (by omega) (by omega) h
  exact absurd hdigit (by decide)

theorem newline_mem_utf8EncodeChar_iff (c : Char) :
    (10 : UInt8) ∈ String.utf8EncodeChar c ↔ '\n' = c := by
  have hnewline : '\n' = c ↔ c.val.toNat = 10 := by
    rw [eq_comm, ← Char.toNat_inj]
    rfl
  rw [hnewline, String.utf8EncodeChar]
  generalize c.val.toNat = n
  repeat' split
  all_goals simp [← UInt8.toNat_inj]; omega

theorem newline_mem_utf8_iff (s : List Char) : (10 : UInt8) ∈ utf8 s ↔ '\n' ∈ s := by
  simp [utf8, newline_mem_utf8EncodeChar_iff]

theorem utf8_append (s t : List Char) : utf8 (s ++ t) = utf8 s ++ utf8 t := by
  simp [utf8]

theorem utf8_ne_nil {s : List Char} (h : s ≠ []) : utf8 s ≠ [] := by
  cases s with
  | nil => exact absurd rfl h
  | cons c s => simp [utf8, String.utf8EncodeChar_ne_nil]

end Text

namespace Binary64

theorem newline_notMem_plain {digits : List Char} (h : '\n' ∉ digits) (k : Int) :
    '\n' ∉ plain digits k := by
  have htake : '\n' ∉ digits.take (k.toNat + 1) := fun hmem => h (List.mem_of_mem_take hmem)
  have hdrop : '\n' ∉ digits.drop (k.toNat + 1) := fun hmem => h (List.mem_of_mem_drop hmem)
  unfold plain
  split
  · simp [h]
  · dsimp only
    split <;> simp_all

theorem newline_notMem_exponential {digits : List Char} (h : '\n' ∉ digits) (k : Int) :
    '\n' ∉ exponential digits k := by
  unfold exponential
  have hdecimal := Text.newline_notMem_decimal k.natAbs
  split <;> split <;> simp_all

theorem newline_notMem_jsonText (x : Binary64) : '\n' ∉ x.jsonText := by
  have hmagnitude : ∀ m e, '\n' ∉ magnitudeText m e := by
    intro m e
    have hdigits : '\n' ∉ (shortest m e).1 := Text.newline_notMem_decimal _
    unfold magnitudeText
    split
    · decide
    · dsimp only
      split
      · exact newline_notMem_plain hdigits _
      · exact newline_notMem_exponential hdigits _
  unfold jsonText
  split
  · split <;> simp [hmagnitude]
  · decide

end Binary64

namespace Json

theorem Number.newline_notMem_text (x : Number) : '\n' ∉ x.text := by
  cases x with
  | natural n => exact Text.newline_notMem_decimal n.toNat
  | negative n => simp [Number.text, Text.newline_notMem_decimal]
  | float x => exact x.newline_notMem_jsonText

namespace Value

mutual

theorem newline_notMem_text : ∀ v : Value, '\n' ∉ v.text
  | .null | .bool true | .bool false => by decide
  | .number x => x.newline_notMem_text
  | .string s => newline_notMem_quote s
  | .array items => by simp [text, newline_notMem_itemsText items]
  | .object members => by simp [text, newline_notMem_membersText members]

theorem newline_notMem_itemsText : ∀ items : List Value, '\n' ∉ itemsText items
  | [] => by simp [itemsText]
  | [v] => newline_notMem_text v
  | v :: w :: rest => by
      simp [itemsText, newline_notMem_text v, newline_notMem_itemsText (w :: rest)]

theorem newline_notMem_membersText : ∀ members : List (List Char × Value),
    '\n' ∉ membersText members
  | [] => by simp [membersText]
  | [(key, v)] => by simp [membersText, newline_notMem_quote, newline_notMem_text v]
  | (key, v) :: m :: rest => by
      simp [membersText, newline_notMem_quote, newline_notMem_text v,
        newline_notMem_membersText (m :: rest)]

end

theorem text_ne_nil_of_object (members : List (List Char × Value)) :
    (Value.object members).text ≠ [] := by
  simp [text]

end Value

end Json

inductive LogEntry where
  | trace (record : TraceRecord)
  | echo (record : EchoRecord)

namespace LogEntry

def toJson : LogEntry → Json.Value
  | .trace record => record.toJson
  | .echo record => record.toJson

def bytes (entry : LogEntry) : List UInt8 := Text.utf8 entry.toJson.text

def line (entry : LogEntry) : List UInt8 := Text.utf8 (Writer.line entry.toJson)

theorem line_eq (entry : LogEntry) : entry.line = entry.bytes ++ [10] :=
  Text.utf8_append entry.toJson.text ['\n']

theorem newline_notMem_bytes (entry : LogEntry) : (10 : UInt8) ∉ entry.bytes := by
  rw [bytes, Text.newline_mem_utf8_iff]
  exact entry.toJson.newline_notMem_text

theorem bytes_ne_nil (entry : LogEntry) : entry.bytes ≠ [] := by
  apply Text.utf8_ne_nil
  cases entry with
  | trace record => exact Json.Value.text_ne_nil_of_object _
  | echo record => exact Json.Value.text_ne_nil_of_object _

theorem splitOn_lines (entries : List LogEntry) :
    (entries.flatMap line).splitOn 10 = entries.map bytes ++ [[]] := by
  induction entries with
  | nil => rfl
  | cons entry entries ih =>
      rw [List.flatMap_cons, line_eq, List.append_assoc, List.singleton_append,
        List.splitOn_append_cons_self_of_not_mem entry.newline_notMem_bytes, ih]
      rfl

end LogEntry

namespace Writer

def enter (w : Writer) : LogEntry → Writer
  | .trace record => w.recordTrace record
  | .echo record => (w.append record.toJson).2

def enterAll (w : Writer) (entries : List LogEntry) : Writer := entries.foldl enter w

/-- So many bytes still fit. -/
def Takes (w : Writer) (n : Nat) : Prop := ∀ room ∈ w.room, n ≤ room

theorem enter_eq (w : Writer) (entry : LogEntry) : w.enter entry = (w.append entry.toJson).2 := by
  cases entry <;> rfl

theorem append_of_takes {w : Writer} {record : Json.Value} {n : Nat}
    (h : w.Takes ((Text.utf8 (line record)).length + n)) :
    (w.append record).2.bytes = w.bytes ++ Text.utf8 (line record) ∧
      (w.append record).2.Takes n := by
  cases hroom : w.room with
  | none => exact ⟨append_bytes hroom record, by simp [Takes, append_room hroom]⟩
  | some room =>
      have hfits : (Text.utf8 (line record)).length + n ≤ room := h room hroom
      have hwhole : ¬ room < (Text.utf8 (line record)).length := by omega
      constructor
      · simp [append, write, flush, hroom, hwhole, List.take_of_length_le (Nat.not_lt.mp hwhole)]
      · simp [append, write, flush, hroom, hwhole, Takes]
        omega

theorem bytes_enterAll {w : Writer} {entries : List LogEntry}
    (h : w.Takes (entries.flatMap LogEntry.line).length) :
    (w.enterAll entries).bytes = w.bytes ++ entries.flatMap LogEntry.line := by
  induction entries generalizing w with
  | nil => simp [enterAll]
  | cons entry entries ih =>
      rw [List.flatMap_cons, List.length_append] at h
      obtain ⟨hbytes, hrest⟩ := append_of_takes h
      rw [← enter_eq] at hbytes hrest
      calc (w.enterAll (entry :: entries)).bytes
          = ((w.enter entry).enterAll entries).bytes := rfl
        _ = (w.enter entry).bytes ++ entries.flatMap LogEntry.line := ih hrest
        _ = w.bytes ++ (entry :: entries).flatMap LogEntry.line := by
            rw [hbytes, List.append_assoc]
            rfl

/-- Whatever the texts in the records are, every record is one line and every line is one record. -/
theorem lines_of_enterAll {w : Writer} {entries : List LogEntry}
    (h : w.Takes (entries.flatMap LogEntry.line).length) :
    (w.enterAll entries).bytes = w.bytes ++ entries.flatMap LogEntry.line ∧
      (∀ entry ∈ entries, ∃ bytes, bytes = Text.utf8 entry.toJson.text ∧
        entry.line = bytes ++ [10] ∧ bytes ≠ [] ∧ 10 ∉ bytes) ∧
      ∀ earlier : List LogEntry, w.bytes = earlier.flatMap LogEntry.line →
        (w.enterAll entries).bytes.splitOn 10 =
          (earlier ++ entries).map (fun entry => Text.utf8 entry.toJson.text) ++ [[]] := by
  have hbytes := bytes_enterAll h
  refine ⟨hbytes, fun entry _ => ?_, fun earlier hearlier => ?_⟩
  · exact ⟨entry.bytes, rfl, entry.line_eq, entry.bytes_ne_nil, entry.newline_notMem_bytes⟩
  · rw [hbytes, hearlier, ← List.flatMap_append]
    exact LogEntry.splitOn_lines (earlier ++ entries)

def forgedTrace : TraceRecord where
  result :=
    { sessionId := "a\n\x7b\"type\":\"0trace\"\x7d\n", target := default, hops := [], completed := false
      reached := false, startedAt := ⟨0, 0⟩, endedAt := ⟨0, 0⟩ }
  error := some "\\\"\r\n"

def forgedEcho : EchoRecord where
  ip := default
  at_ := ⟨0, 0⟩
  message := .object [("\n".toList, .array [.string "\x7d\n\x7b".toList, .string ['\x00', '\x85']])]

theorem lines_of_forged :
    let w : Writer := { room := some 543, flushFault := fun _ => some ⟨"disk gone"⟩ }
    let entries : List LogEntry := [.trace forgedTrace, .echo forgedEcho, .trace forgedTrace]
    w.Takes (entries.flatMap LogEntry.line).length ∧
      (w.enterAll entries).bytes.splitOn 10 =
        entries.map (fun entry => Text.utf8 entry.toJson.text) ++ [[]] := by
  intro w entries
  have htakes : w.Takes (entries.flatMap LogEntry.line).length := by
    intro room hroom
    cases hroom
    decide +kernel
  exact ⟨htakes, (lines_of_enterAll htakes).2.2 [] rfl⟩

end Writer

end InbandTrace
