import InbandTrace.Json.Session
import InbandTrace.Proofs.Json.Faults
import InbandTrace.Proofs.Json.Hops

namespace InbandTrace

open Json Reader

namespace Hop

attribute [local irreducible] Span.ofMillis? Reader.map

def MeetsRtt (s : List Char) (ms : Binary64) : Prop :=
  ∃ f p t rest, Meets fields {} s f p t ∧ f.name = "rtt_ms" ∧
    Reader.optional float t = .ok (some ms, rest)

/-- Milliseconds that make 2 ^ 64 seconds or more. -/
def TooLong (ms : Binary64) : Prop := ms.isNegative = false ∧ Span.tooMany ≤ ms.units

theorem proper_toBinary64 {x : Number} (h : x.Regular) : x.toBinary64.Proper := by
  cases x with
  | natural n => exact Binary64.proper_ofNat n.toNat_lt
  | negative n => exact Binary64.proper_negate.mpr (Binary64.proper_ofNat n.toNat_lt)
  | float x => exact h

section

variable {s rest : List Char} {ms : Binary64}

theorem proper_of_float (h : float s = .ok (ms, rest)) : ms.Proper := by
  obtain ⟨n, hnumber, rfl⟩ := map_eq_ok.mp h
  obtain ⟨r, -, hvalue⟩ := bind_eq_ok.mp hnumber
  obtain ⟨m, hm, heq⟩ := bind_eq_ok.mp hvalue
  cases heq
  exact proper_toBinary64 (Numeral.regular_of_number? (ofOption_eq_ok.mp hm))

theorem float_of_optional (h : Reader.optional float s = .ok (some ms, rest)) :
    float s = .ok (ms, rest) := by
  unfold Reader.optional at h
  split at h
  · obtain ⟨x, -, heq⟩ := map_eq_ok.mp h
    cases heq
  · obtain ⟨x, hfloat, heq⟩ := map_eq_ok.mp h
    cases heq
    exact hfloat

theorem rttReader_eq_overlong_iff : rttReader s = .error .overlong ↔
    ∃ ms rest, Reader.optional float s = .ok (some ms, rest) ∧ TooLong ms := by
  cases h : Reader.optional float s with
  | error e =>
      have htame : e ≠ .overlong := by
        rintro rfl
        exact (tame_number.map _).optional s h
      simp [rttReader_error h, htame]
  | ok r =>
      obtain ⟨x, rest⟩ := r
      cases x with
      | none => simp [rttReader_none h]
      | some ms =>
          have hlong : TooLong ms ↔ Span.ofMillis? ms = none :=
            (Span.ofMillis?_eq_none_iff (proper_of_float (float_of_optional h))).symm
          cases hms : Span.ofMillis? ms <;> simp [rttReader_some h, hlong, hms]

theorem shrinks_rttReader : Shrinks rttReader := by
  intro s x rest hread
  have hshrinks := (shrinks_number.map Number.toBinary64).optional
  cases h : Reader.optional float s with
  | error e => cases (rttReader_error h).symm.trans hread
  | ok r =>
      obtain ⟨y, t⟩ := r
      have ht := hshrinks h
      cases y with
      | none =>
          cases (rttReader_none h).symm.trans hread
          exact ht
      | some ms =>
          rw [rttReader_some h] at hread
          cases hms : Span.ofMillis? ms with
          | none =>
              rw [hms] at hread
              cases hread
          | some u =>
              rw [hms] at hread
              cases hread
              exact ht

end

theorem shrinks_status : Shrinks HopStatus.reader := shrinks_enumeration (by simp)

theorem tame_status : Tame HopStatus.reader := tame_enumeration (by simp)

theorem shrinks_fields : ∀ f ∈ fields, ∀ p, Shrinks (f.read p) := by
  simp only [fields, List.forall_mem_cons]
  refine ⟨fun p => ?_, fun p => ?_, fun p => ?_, fun p => ?_, by simp⟩
  · exact ((shrinks_naturalBelow 256).map Nat.toUInt8).map _
  · exact (shrinks_parsed Net.Ip.ofText?).optional.map _
  · exact shrinks_rttReader.map _
  · exact shrinks_status.map _

theorem read_eq_overlong_iff {f : Reader.Field Parts} (h : f ∈ fields) {p : Parts} {s : List Char} :
    f.read p s = .error .overlong ↔ f.name = "rtt_ms" ∧ rttReader s = .error .overlong := by
  revert f
  simp only [fields, List.forall_mem_cons]
  refine ⟨?_, ?_, ?_, ?_, by simp⟩
  · exact iff_of_false (((tame_naturalBelow 256).map Nat.toUInt8).map _ s) (by simp)
  · exact iff_of_false ((tame_parsed Net.Ip.ofText?).optional.map _ s) (by simp)
  · simp [map_eq_overlong_iff]
  · exact iff_of_false (tame_status.map _ s) (by simp)

theorem shrinks_reader : Shrinks reader := (shrinks_record shrinks_fields {}).complete _

theorem reader_eq_overlong_iff {s : List Char} :
    reader s = .error .overlong ↔ ∃ ms, MeetsRtt s ms ∧ TooLong ms := by
  rw [reader, complete_eq_overlong_iff, record_eq_overlong_iff shrinks_fields]
  constructor
  · rintro ⟨f, p, t, hmeets, hfault⟩
    obtain ⟨hname, hrtt⟩ := (read_eq_overlong_iff hmeets.mem).mp hfault
    obtain ⟨ms, rest, hread, hlong⟩ := rttReader_eq_overlong_iff.mp hrtt
    exact ⟨ms, ⟨f, p, t, rest, hmeets, hname, hread⟩, hlong⟩
  · rintro ⟨ms, ⟨f, p, t, rest, hmeets, hname, hread⟩, hlong⟩
    refine ⟨f, p, t, hmeets, (read_eq_overlong_iff hmeets.mem).mpr ⟨hname, ?_⟩⟩
    exact rttReader_eq_overlong_iff.mpr ⟨ms, rest, hread, hlong⟩

theorem reader_of_not_open {s : List Char} (hbracket : punctuation '[' s = none)
    (hbrace : punctuation '\x7b' s = none) : reader s = .error .malformed := by
  rw [reader, Reader.complete, record_of_not_open hbracket hbrace, error_bind]

end Hop

namespace TraceResult

def MeetsHop (s t : List Char) : Prop :=
  ∃ f p u rest, Meets fields {} s f p u ∧ f.name = "hops" ∧ expect '[' u = .ok rest ∧
    MeetsEntry Hop.reader rest t

theorem shrinks_fields : ∀ f ∈ fields, ∀ p, Shrinks (f.read p) := by
  simp only [fields, List.forall_mem_cons]
  refine ⟨fun p => ?_, fun p => ?_, fun p => ?_, fun p => ?_, fun p => ?_, fun p => ?_,
    fun p => ?_, by simp⟩
  · exact shrinks_text.map _
  · exact (shrinks_parsed Net.Ip.ofText?).map _
  · exact Hop.shrinks_reader.list.map _
  · exact shrinks_bool.map _
  · exact shrinks_bool.map _
  · exact (shrinks_parsed Timestamp.ofText?).map _
  · exact (shrinks_parsed Timestamp.ofText?).map _

theorem hops_eq_overlong_iff {s : List Char} : list Hop.reader s = .error .overlong ↔
    ∃ rest t, expect '[' s = .ok rest ∧ MeetsEntry Hop.reader rest t ∧
      Hop.reader t = .error .overlong := by
  refine list_eq_overlong_iff Hop.shrinks_reader (Hop.reader_of_not_open rfl rfl) fun t hclose => ?_
  obtain ⟨rest, hrest⟩ := Option.ne_none_iff_exists'.mp hclose
  exact Hop.reader_of_not_open (punctuation_of_other hrest (by decide))
    (punctuation_of_other hrest (by decide))

theorem read_eq_overlong_iff {f : Reader.Field Parts} (h : f ∈ fields) {p : Parts} {s : List Char} :
    f.read p s = .error .overlong ↔ f.name = "hops" ∧ list Hop.reader s = .error .overlong := by
  revert f
  simp only [fields, List.forall_mem_cons]
  refine ⟨?_, ?_, ?_, ?_, ?_, ?_, ?_, by simp⟩
  · exact iff_of_false (tame_text.map _ s) (by simp)
  · exact iff_of_false ((tame_parsed Net.Ip.ofText?).map _ s) (by simp)
  · simp [map_eq_overlong_iff]
  · exact iff_of_false (tame_bool.map _ s) (by simp)
  · exact iff_of_false (tame_bool.map _ s) (by simp)
  · exact iff_of_false ((tame_parsed Timestamp.ofText?).map _ s) (by simp)
  · exact iff_of_false ((tame_parsed Timestamp.ofText?).map _ s) (by simp)

theorem reader_eq_overlong_iff {s : List Char} : reader s = .error .overlong ↔
    ∃ t ms, MeetsHop s t ∧ Hop.MeetsRtt t ms ∧ Hop.TooLong ms := by
  rw [reader, complete_eq_overlong_iff, record_eq_overlong_iff shrinks_fields]
  constructor
  · rintro ⟨f, p, u, hmeets, hfault⟩
    obtain ⟨hname, hhops⟩ := (read_eq_overlong_iff hmeets.mem).mp hfault
    obtain ⟨rest, t, hopen, hentry, hhop⟩ := hops_eq_overlong_iff.mp hhops
    obtain ⟨ms, hrtt, hlong⟩ := Hop.reader_eq_overlong_iff.mp hhop
    exact ⟨t, ms, ⟨f, p, u, rest, hmeets, hname, hopen, hentry⟩, hrtt, hlong⟩
  · rintro ⟨t, ms, ⟨f, p, u, rest, hmeets, hname, hopen, hentry⟩, hrtt, hlong⟩
    refine ⟨f, p, u, hmeets, (read_eq_overlong_iff hmeets.mem).mpr ⟨hname, ?_⟩⟩
    have hhop := Hop.reader_eq_overlong_iff.mpr ⟨ms, hrtt, hlong⟩
    exact hops_eq_overlong_iff.mpr ⟨rest, t, hopen, hentry, hhop⟩

end TraceResult

/-- A text stops the reading just when it gets to a time of 2 ^ 64 seconds or more; every other text
gives a hop, a result or a plain error. What was written for a hop is among those that stop it where
its time has that many seconds once it is a double. -/
theorem Hop.reading_stops_iff (s : List Char) (h : Hop) :
    (Hop.reader.whole s = .error .overlong ↔ ∃ ms, Hop.MeetsRtt s ms ∧ Hop.TooLong ms) ∧
      (TraceResult.reader.whole s = .error .overlong ↔
        ∃ t ms, TraceResult.MeetsHop s t ∧ Hop.MeetsRtt t ms ∧ Hop.TooLong ms) ∧
      ((∀ t ∈ h.rtt, t / Span.perSecond < 2 ^ 64) →
        ∃ rtt : Option Span, rtt.isSome = h.rtt.isSome ∧
          Hop.reader.whole h.toJson.text =
            if ∃ t ∈ h.rtt, 2 ^ 64 - 1024 ≤ t / Span.perSecond then .error .overlong
            else .ok { h with rtt }) := by
  refine ⟨?_, ?_, Hop.whole_toJson⟩
  · rw [whole_eq_overlong_iff, Hop.reader_eq_overlong_iff]
  · rw [whole_eq_overlong_iff, TraceResult.reader_eq_overlong_iff]

def Hop.slowest : Hop := ⟨1, none, some (2 ^ 64 * Span.perSecond - 1), .timeout⟩

theorem Hop.reading_stops_of_slowest :
    Hop.reader.whole ("\x7b\"ttl\":1,\"responder\":null,\"rtt_ms\":1e300,\"status\":" ++
        "\"timeout\"\x7d").toList = .error .overlong ∧
      Hop.reader.whole Hop.slowest.toJson.text = .error .overlong ∧
      ∀ t ∈ Hop.slowest.rtt, t / Span.perSecond < 2 ^ 64 := by
  refine ⟨by decide +kernel, by decide +kernel, by decide +kernel⟩

end InbandTrace
