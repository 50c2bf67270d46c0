import InbandTrace.Proofs.Json.Millis
import InbandTrace.Proofs.Json.Readers

namespace InbandTrace

open Json Reader

namespace Hop

attribute [local irreducible] Span.ofMillis? Span.toMillis Number.reread Reader.map

theorem yields_status (s : HopStatus) : Yields HopStatus.reader s.toJson.text (.ok s) := by
  cases s <;> exact yields_enumeration rfl

theorem yields_responder (x : Option Net.Ip) :
    Yields (optional ip) (Value.ofOption Net.Ip.toJson x).text (.ok x) := by
  cases x with
  | none => exact yields_optional_none
  | some x => exact (yields_ip x).optional ⟨'"', _, rfl, rfl, by decide⟩

section

variable {s rest : List Char} {ms : Binary64}

theorem rttReader_none (h : Reader.optional float s = .ok (none, rest)) :
    rttReader s = .ok (none, rest) := by
  rw [rttReader, h]
  rfl

theorem rttReader_some (h : Reader.optional float s = .ok (some ms, rest)) :
    rttReader s = (Span.ofMillis? ms).elim (.error .overlong) fun t => .ok (some t, rest) := by
  -- The kernel would compute the conversion if it were not a variable.
  obtain ⟨convert?, hconvert⟩ : ∃ f, f = Span.ofMillis? := ⟨_, rfl⟩
  rw [rttReader, h, ← hconvert]
  simp only [ok_bind]
  cases convert? ms <;> rfl

theorem rttReader_error {e : Failure} (h : Reader.optional float s = .error e) :
    rttReader s = .error e := by
  rw [rttReader, h]
  rfl

theorem yields_rttReader_none (h : Yields (Reader.optional float) s (.ok none)) :
    Yields rttReader s (.ok none) :=
  fun rest hrest => rttReader_none (h rest hrest)

theorem yields_rttReader_some (h : Yields (Reader.optional float) s (.ok (some ms))) :
    Yields rttReader s ((Span.ofMillis? ms).elim (.error .overlong) fun t => .ok (some t)) := by
  intro rest hrest
  rw [rttReader_some (h rest hrest)]
  cases Span.ofMillis? ms <;> rfl

end

def rereadRtt (rtt : Option Span) : Except Failure (Option Span) :=
  rtt.elim (.ok none) fun t =>
    (Span.ofMillis? (Number.float t.toMillis).reread.toBinary64).elim (.error .overlong)
      fun u => .ok (some u)

theorem yields_rtt {rtt : Option Span} (h : ∀ t ∈ rtt, (Number.float t.toMillis).Regular) :
    Yields rttReader (Value.ofOption (fun t => .number (.float (Span.toMillis t))) rtt).text
      (rereadRtt rtt) := by
  cases rtt with
  | none => exact yields_rttReader_none yields_optional_none
  | some t =>
      obtain ⟨c, s, htext, hnumeric⟩ := Number.exists_head (h t rfl)
      obtain ⟨hblank, hother⟩ := isBlank_of_isNumeric hnumeric
      have hhead : ∃ c s, (Number.float t.toMillis).text = c :: s ∧ isBlank c = false ∧ c ≠ 'n' :=
        ⟨c, s, htext, hblank, fun hc => hother (by simp [hc])⟩
      rw [rereadRtt, Option.elim_some]
      exact yields_rttReader_some ((yields_float (h t rfl)).optional hhead)

theorem fills_members {h : Hop} (hrtt : ∀ t ∈ h.rtt, (Number.float t.toMillis).Regular) :
    Fills fields {}
      [Value.member "ttl" (Value.ofNat h.ttl.toNat),
        Value.member "responder" (Value.ofOption Net.Ip.toJson h.responder),
        Value.member "rtt_ms" (Value.ofOption (fun t => .number (.float (Span.toMillis t))) h.rtt),
        Value.member "status" h.status.toJson]
      ((rereadRtt h.rtt).map fun rtt =>
        ⟨some h.ttl, some h.responder, some rtt, some h.status⟩) := by
  -- The status is only read if the time is not too long.
  refine .cons rfl rfl ((yields_uint8 h.ttl).set _) ?_
  refine .cons rfl rfl ((yields_responder h.responder).set _) ?_
  have hread := yields_rtt hrtt
  cases hr : rereadRtt h.rtt with
  | error e =>
      rw [hr] at hread
      exact .fault _ rfl rfl (hread.map _)
  | ok rtt =>
      rw [hr] at hread
      refine .cons rfl rfl (hread.set _) ?_
      exact .cons rfl rfl ((yields_status h.status).set _) (.nil _)

theorem yields_toJson {h : Hop} (hrtt : ∀ t ∈ h.rtt, (Number.float t.toMillis).Regular) :
    Yields reader h.toJson.text ((rereadRtt h.rtt).map fun rtt => { h with rtt }) := by
  have hread := (fills_members hrtt).yields.complete Parts.finish
  cases hr : rereadRtt h.rtt <;> rwa [hr] at hread

theorem whole_toJson {h : Hop} (hspan : ∀ t ∈ h.rtt, t / Span.perSecond < 2 ^ 64) :
    ∃ rtt : Option Span, rtt.isSome = h.rtt.isSome ∧
      reader.whole h.toJson.text =
        if ∃ t ∈ h.rtt, 2 ^ 64 - 1024 ≤ t / Span.perSecond then .error .overlong
        else .ok { h with rtt } := by
  have hregular : ∀ t ∈ h.rtt, (Number.float t.toMillis).Regular :=
    fun t ht => (ofMillis?_reread (hspan t ht)).1
  rw [(yields_toJson hregular).whole]
  cases hrtt : h.rtt with
  | none => exact ⟨none, rfl, by simp [rereadRtt, Except.map]⟩
  | some t =>
      have hnone := (ofMillis?_reread (hspan t (by rw [hrtt]; rfl))).2
      rw [rereadRtt, Option.elim_some]
      cases hms : Span.ofMillis? (Number.float t.toMillis).reread.toBinary64 with
      | none => exact ⟨some t, rfl, (if_pos ⟨t, rfl, hnone.mp hms⟩).symm⟩
      | some u =>
          have hshort : ¬ 2 ^ 64 - 1024 ≤ t / Span.perSecond := by
            intro hlong
            cases hms.symm.trans (hnone.mpr hlong)
          refine ⟨some u, rfl, ?_⟩
          simp only [Option.elim_some, Except.map, Option.mem_def, Option.some.injEq,
            exists_eq_left', hshort, if_false]

end Hop

end InbandTrace
