import InbandTrace.Engine
import InbandTrace.Time.Span

namespace InbandTrace

namespace Settle

def interval : Span := Span.ofMillis 5

def patience : Span := Span.ofMillis 3000

def quiet : Except Fault TcpInfo → Bool
  | .ok info => info.unacknowledged == 0
  | .error _ => true

theorem quiet_iff {answer : Except Fault TcpInfo} : quiet answer = true ↔
    (∃ fault, answer = .error fault) ∨ ∃ info, answer = .ok info ∧ info.unacknowledged = 0 := by
  cases answer <;> simp [quiet]

def settleBy (giveUp : Instant) : (more : Nat) → World → Bool × World
  | more, w =>
      let (info, w) := w.statistics
      if quiet info then (true, w)
      else if giveUp ≤ w.now then (false, w)
      else match more with
        | 0 => (false, w)
        | more + 1 => settleBy giveUp more { w with now := w.now + interval }

end Settle

def World.settle (w : World) : Bool × World :=
  Settle.settleBy (w.now + Settle.patience) (Settle.patience / Settle.interval) w

end InbandTrace
