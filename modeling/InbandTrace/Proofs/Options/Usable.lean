import InbandTrace.Options.Parser
import InbandTrace.Options.Validation
import InbandTrace.Proofs.Time.Millis

namespace InbandTrace

section

variable {num den n : Nat}

theorem roundHalfEven_pos_iff (hden : 0 < den) : 0 < roundHalfEven num den ↔ den < 2 * num := by
  by_cases hless : num < den
  · unfold roundHalfEven
    rw [Nat.div_eq_of_lt hless, Nat.mod_eq_of_lt hless]
    dsimp only
    split
    · omega
    · split <;> omega
  · have hquotient : 0 < num / den := Nat.div_pos (Nat.le_of_not_lt hless) hden
    have hle := div_le_roundHalfEven num den
    omega

theorem roundHalfEven_le (hden : 0 < den) (h : num ≤ den * n) : roundHalfEven num den ≤ n := by
  have hround := two_mul_roundHalfEven_le num den
  refine Nat.le_of_lt_succ (Nat.lt_of_mul_lt_mul_left (a := den) ?_)
  rw [Nat.mul_succ]
  omega

end

namespace Text

theorem utf8ByteSize_ofList (s : List Char) : (String.ofList s).utf8ByteSize = byteLength s := by
  induction s with
  | nil => rfl
  | cons c s ih =>
      rw [String.ofList_cons, String.utf8ByteSize_append, String.utf8ByteSize_singleton, ih,
        byteLength]

end Text

namespace Span

/-- So many seconds are more than half a nanosecond. -/
def Perceptible (x : Binary64) : Prop := Binary64.one < 2 * (x.units * perSecond)

instance (x : Binary64) : Decidable (Perceptible x) :=
  inferInstanceAs (Decidable (_ < _))

attribute [local irreducible] Binary64.one

theorem exists_ofSeconds? {x : Binary64} {n : Nat} (hpositive : x.isPositive = true)
    (hbound : x.exceeds n = false) (hn : n < 2 ^ 64) :
    ∃ t, ofSeconds? x = some t ∧ t ≤ n * perSecond ∧ (0 < t ↔ Perceptible x) := by
  have hone := Binary64.one_pos
  cases x with
  | nan => cases hpositive
  | infinite s => cases hbound.symm.trans hpositive
  | finite s m e =>
      simp only [Binary64.isPositive, Bool.and_eq_true, Bool.not_eq_true', bne_iff_ne] at hpositive
      obtain ⟨rfl, -⟩ := hpositive
      have hle : m * 2 ^ e ≤ n * Binary64.one := by
        simp only [Binary64.exceeds, Bool.not_false, Bool.true_and,
          decide_eq_false_iff_not] at hbound
        exact Nat.not_lt.mp hbound
      have hlt : m * 2 ^ e < 2 ^ 64 * Binary64.one :=
        Nat.lt_of_le_of_lt hle (Nat.mul_lt_mul_of_pos_right hn hone)
      refine ⟨_, ofSeconds?_of_lt hlt, roundHalfEven_le hone ?_, roundHalfEven_pos_iff hone⟩
      calc m * 2 ^ e * perSecond ≤ n * Binary64.one * perSecond := Nat.mul_le_mul_right _ hle
        _ = Binary64.one * (n * perSecond) := by ring

end Span

/-- What a server can run with, but for times that may be zero. -/
structure Config.Sized (c : Config) : Prop where
  firstTtl : 1 ≤ c.firstTtl
  order : c.firstTtl ≤ c.maxHops
  maxHops : c.maxHops ≤ 64
  hopTimeout : c.hopTimeout ≤ 60 * Span.perSecond
  reapInterval : c.reapInterval ≤ 60 * Span.perSecond
  named : c.interface ≠ ""
  interface : c.interface.utf8ByteSize ≤ 15

namespace Options

variable {o : Options}

def ValidTime (x : Binary64) : Prop := x.isPositive = true ∧ x.exceeds maxSeconds = false

theorem valid_of_invalid? (h : o.invalid? = none) :
    ValidTime o.timeout ∧ ValidTime o.reapInterval ∧
      (1 ≤ o.firstTtl ∧ o.firstTtl ≤ o.maxHops ∧ o.maxHops ≤ hopLimit) ∧
      o.interface ≠ [] ∧ Text.byteLength o.interface ≤ maxInterfaceLength := by
  simp only [invalid?, ite_eq_iff, reduceCtorEq, and_false, false_or, and_true, Bool.not_eq_true',
    Bool.not_eq_false, Bool.not_eq_true, Bool.or_eq_true, not_or, not_lt] at h
  obtain ⟨htimeout, hlong, ⟨hinterval, hrare⟩, -, hmax, hzero, hfirst, hnamed, hlength⟩ := h
  have hone : 1 ≤ o.firstTtl := by
    refine UInt8.le_iff_toNat_le.mpr (Nat.pos_of_ne_zero fun h => hzero ?_)
    exact UInt8.toNat_inj.mp h
  exact ⟨⟨htimeout, hlong⟩, ⟨hinterval, hrare⟩,
    ⟨hone, UInt8.not_lt.mp hfirst, UInt8.not_lt.mp hmax⟩, hnamed, hlength⟩

/-- Valid options stand for a configuration within all bounds; its times are positive just when
those of the options are more than half a nanosecond. -/
theorem config_of_valid (h : o.invalid? = none) :
    ∃ c : Config, o.config? = some c ∧ c.Sized ∧
      (0 < c.hopTimeout ↔ Span.Perceptible o.timeout) ∧
      (0 < c.reapInterval ↔ Span.Perceptible o.reapInterval) := by
  obtain ⟨⟨htimeout, hlong⟩, ⟨hinterval, hrare⟩, ⟨hone, hfirst, hmax⟩, hnamed, hlength⟩ :=
    valid_of_invalid? h
  obtain ⟨timeout, ht, htmax, htpos⟩ := Span.exists_ofSeconds? htimeout hlong (by decide)
  obtain ⟨interval, hi, himax, hipos⟩ := Span.exists_ofSeconds? hinterval hrare (by decide)
  refine ⟨_, by simp only [config?, ht, hi]; rfl, ⟨hone, hfirst, hmax, htmax, himax, ?_, ?_⟩,
    htpos, hipos⟩
  · intro hempty
    exact hnamed (String.ofList_eq_empty_iff.mp hempty)
  · rw [Text.utf8ByteSize_ofList]
    exact hlength

def edge : Options where
  interface := "réseau-interne".toList
  maxHops := 64
  firstTtl := 64
  timeout := .ofNat 60
  reapInterval := .ofDecimal false 5 (-10)

theorem config_of_edge : edge.invalid? = none ∧
    ∃ c : Config, edge.config? = some c ∧ c.Sized ∧ 0 < c.hopTimeout ∧ 0 < c.reapInterval := by
  have hvalid : edge.invalid? = none := by decide +kernel
  obtain ⟨c, hconfig, hsized, htimeout, hinterval⟩ := config_of_valid hvalid
  refine ⟨hvalid, c, hconfig, hsized, htimeout.mpr ?_, hinterval.mpr ?_⟩
  · decide +kernel
  · decide +kernel

def hasty : Options where
  timeout := .ofDecimal false 1 (-10)
  reapInterval := .ofDecimal false 1 (-10)

theorem config_of_hasty :
    Options.ofArguments ["--timeout=1e-10".toList, "--reap-interval=1e-10".toList] = .ok hasty ∧
      hasty.invalid? = none ∧
      hasty.config?.map (fun c => (c.hopTimeout, c.reapInterval)) = some (0, 0) := by
  refine ⟨by decide +kernel, by decide +kernel, by decide +kernel⟩

end Options

end InbandTrace
