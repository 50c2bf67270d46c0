import InbandTrace.Proofs.Json.Decimals
import InbandTrace.Proofs.Json.Hops
import InbandTrace.Proofs.Time.Recovery

namespace InbandTrace

open Json Reader

attribute [local irreducible] Binary64.one Span.ofMillis? Span.toMillis Number.reread Reader.map

namespace Json

theorem ofMillis?_reread_of_le {t : Nat} (h : t ≤ Span.minute) :
    Span.ofMillis? (Number.float (Span.toMillis t)).reread.toBinary64 = some t := by
  -- Nothing is close to zero but zero, which is written and read as it is.
  rcases Nat.eq_zero_or_pos t with rfl | hpos
  · decide +kernel
  · have hlt := Span.lt_of_le_minute h
    have hseconds : t / Span.perSecond < 2 ^ 64 - 1024 :=
      Nat.lt_of_le_of_lt (Nat.div_le_self ..) (by omega)
    obtain ⟨hproper, hsign, -⟩ := Span.toMillis_of_lt hseconds
    have hclose := Span.close_toMillis h
    have hmoderate := (Span.moderate_millis (k := 98) h (by decide)).of_close hclose (by decide)
    obtain ⟨z, hz, hproper', hsign', hreread⟩ :=
      close_reread hproper hsign (hclose.pos (Span.millis_pos hpos)) hmoderate
    rw [hz]
    exact Span.ofMillis?_of_close hproper' hsign' hpos h (hreread.trans hclose)

end Json

namespace Hop

theorem rereadRtt_of_le {rtt : Option Span} (h : ∀ t ∈ rtt, t ≤ Span.minute) :
    rereadRtt rtt = .ok rtt := by
  cases rtt with
  | none => rfl
  | some t => rw [rereadRtt, Option.elim_some, ofMillis?_reread_of_le (h t rfl), Option.elim_some]

theorem yields_toJson_of_le {x : Hop} (h : ∀ t ∈ x.rtt, t ≤ Span.minute) :
    Yields reader x.toJson.text (.ok x) := by
  have hregular : ∀ t ∈ x.rtt, (Number.float t.toMillis).Regular := by
    intro t ht
    have hlt := Span.lt_of_le_minute (h t ht)
    exact (ofMillis?_reread (Nat.lt_of_le_of_lt (Nat.div_le_self ..) (by omega))).1
  have hread := yields_toJson hregular
  rwa [rereadRtt_of_le h] at hread

end Hop

theorem Flow.yields_toJson (f : Flow) : Yields reader f.toJson.text (.ok f) := by
  have hfills : Fills fields {}
      [Value.member "src" f.src.toJson, Value.member "dst" f.dst.toJson]
      (.ok ⟨some f.src, some f.dst⟩) := by
    refine .cons rfl rfl ((yields_socket f.src).set _) ?_
    exact .cons rfl rfl ((yields_socket f.dst).set _) (.nil _)
  exact hfills.yields.complete Parts.finish

namespace Token

theorem yields_toJson (t : Token) : Yields reader t.toJson.text (.ok t) := by
  have hfills : Fills fields {}
      [Value.member "flow" t.flow.toJson, Value.member "ip_len" (Value.ofNat t.ipLength.toNat)]
      (.ok ⟨some t.flow, some t.ipLength⟩) := by
    refine .cons rfl rfl (t.flow.yields_toJson.set _) ?_
    exact .cons rfl rfl ((yields_uint16 t.ipLength).set _) (.nil _)
  exact hfills.yields.complete Parts.finish

theorem text_toJson_inj {t u : Token} : t.toJson.text = u.toJson.text ↔ t = u := by
  refine ⟨fun h => ?_, fun h => by rw [h]⟩
  have hread := t.yields_toJson.whole
  rw [h, u.yields_toJson.whole] at hread
  exact (Except.ok.inj hread).symm

end Token

theorem hops_and_tokens_survive {hops : List Hop}
    (h : ∀ x ∈ hops, ∀ t ∈ x.rtt, t ≤ 60 * Span.perSecond) (t u : Token) :
    (Reader.list Hop.reader).whole (Value.array (hops.map Hop.toJson)).text = .ok hops ∧
      Token.reader.whole t.toJson.text = .ok t ∧ (t.toJson.text = u.toJson.text ↔ t = u) := by
  refine ⟨?_, t.yields_toJson.whole, Token.text_toJson_inj⟩
  have hitems : ∀ x ∈ hops, Yields Hop.reader x.toJson.text (.ok x) :=
    fun x hx => Hop.yields_toJson_of_le (h x hx)
  exact (Yields.list hitems fun x _ => ⟨_, _, rfl, rfl, by decide⟩).whole

def Hop.assorted : List Hop :=
  [⟨1, some (.v4 ⟨192, 0, 2, 1⟩), some 1, .answered⟩,
    ⟨2, none, none, .timeout⟩,
    ⟨255, some (.v6 ⟨[0x2001, 0xdb8, 0, 0, 1, 0, 0, 0], rfl⟩), some (60 * Span.perSecond - 1),
      .unreachable⟩,
    ⟨0, some (.v6 ⟨[0, 0, 0, 0, 0, 0xffff, 0xc000, 0x207], rfl⟩), some (60 * Span.perSecond),
      .answered⟩]

def Token.scoped : Token :=
  ⟨⟨.v6 ⟨[0xfe80, 0, 0, 0, 0, 0, 0, 1], rfl⟩ 443 7, .v4 ⟨203, 0, 113, 9⟩ 51234⟩, 65535⟩

def Token.mapped : Token :=
  ⟨⟨.v6 ⟨[0xfe80, 0, 0, 0, 0, 0, 0, 1], rfl⟩ 443 7,
    .v6 ⟨[0, 0, 0, 0, 0, 0xffff, 0xcb00, 0x7109], rfl⟩ 51234 0⟩, 65535⟩

theorem assorted_hops_and_scoped_token_survive :
    (∀ x ∈ Hop.assorted, ∀ t ∈ x.rtt, t ≤ 60 * Span.perSecond) ∧
      (Reader.list Hop.reader).whole (Value.array (Hop.assorted.map Hop.toJson)).text =
        .ok Hop.assorted ∧
      Token.reader.whole Token.scoped.toJson.text = .ok Token.scoped ∧
      Token.scoped.toJson.text ≠ Token.mapped.toJson.text := by
  have hrtt : ∀ x ∈ Hop.assorted, ∀ t ∈ x.rtt, t ≤ 60 * Span.perSecond := by decide
  obtain ⟨hhops, htoken, hinj⟩ := hops_and_tokens_survive hrtt Token.scoped Token.mapped
  exact ⟨hrtt, hhops, htoken, hinj.not.mpr (by decide)⟩

end InbandTrace
