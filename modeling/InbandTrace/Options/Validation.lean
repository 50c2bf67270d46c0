import InbandTrace.Config
import InbandTrace.Options.Basic
import InbandTrace.Text.Utf8

namespace InbandTrace.Options

inductive Invalid where
  | timeoutNotPositive
  | timeoutTooLong
  | reapInterval
  | noHops
  | tooManyHops
  | firstTtlZero
  | firstTtlTooHigh (firstTtl maxHops : UInt8)
  | noInterface
  | interfaceTooLong (name : List Char)
  deriving DecidableEq, Repr

def maxSeconds : Nat := 60

def hopLimit : UInt8 := 64

def maxInterfaceLength : Nat := 15

open Text

def Invalid.message : Invalid → String
  | .timeoutNotPositive => "Timeout must be positive"
  | .timeoutTooLong => "Timeout cannot exceed " ++ number maxSeconds ++ " seconds"
  | .reapInterval => "Reap interval must be between 0 and 60 seconds"
  | .noHops => "Max hops must be at least 1"
  | .tooManyHops => "Max hops cannot exceed " ++ number hopLimit.toNat
  | .firstTtlZero => "First TTL must be at least 1"
  | .firstTtlTooHigh firstTtl maxHops =>
      "First TTL (" ++ number firstTtl.toNat ++ ") cannot exceed max hops ("
        ++ number maxHops.toNat ++ ")"
  | .noInterface => "Interface name cannot be empty"
  | .interfaceTooLong name =>
      "Interface name too long: " ++ String.ofList name ++ " (max 15 chars)"

def invalid? (o : Options) : Option Invalid :=
  if !o.timeout.isPositive then some .timeoutNotPositive
  else if o.timeout.exceeds maxSeconds then some .timeoutTooLong
  else if !o.reapInterval.isPositive || o.reapInterval.exceeds maxSeconds then some .reapInterval
  else if o.maxHops = 0 then some .noHops
  else if hopLimit < o.maxHops then some .tooManyHops
  else if o.firstTtl = 0 then some .firstTtlZero
  else if o.maxHops < o.firstTtl then some (.firstTtlTooHigh o.firstTtl o.maxHops)
  else if o.interface = [] then some .noInterface
  else if maxInterfaceLength < byteLength o.interface then some (.interfaceTooLong o.interface)
  else none

def config? (o : Options) : Option Config := do
  return {
    interface := String.ofList o.interface
    listen := o.listen
    maxHops := o.maxHops
    firstTtl := o.firstTtl
    hopTimeout := ← Span.ofSeconds? o.timeout
    reapInterval := ← Span.ofSeconds? o.reapInterval
    logfile := String.ofList o.logfile }

end InbandTrace.Options
