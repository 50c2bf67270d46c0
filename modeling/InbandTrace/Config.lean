import InbandTrace.Json.Hop

namespace InbandTrace

open Json

structure Config where
  interface : String
  listen : Net.Socket
  maxHops : UInt8
  firstTtl : UInt8
  hopTimeout : Span
  reapInterval : Span
  logfile : String
  deriving DecidableEq, Repr

namespace Config

def default : Config where
  interface := "eth0"
  listen := .v4 .unspecified 8080
  maxHops := 30
  firstTtl := 1
  hopTimeout := Span.ofMillis 1200
  reapInterval := Span.ofMillis 1000
  logfile := "logFile.jsonl"

def toJson (c : Config) : Value :=
  .object
    [Value.member "interface" (Value.ofString c.interface),
      Value.member "listen" c.listen.toJson,
      Value.member "max_hops" (Value.ofNat c.maxHops.toNat),
      Value.member "first_ttl" (Value.ofNat c.firstTtl.toNat),
      Value.member "hop_timeout" (.number (.float (Span.toSeconds c.hopTimeout))),
      Value.member "reap_interval" (.number (.float (Span.toSeconds c.reapInterval))),
      Value.member "logfile" (Value.ofString c.logfile)]

structure Parts where
  interface : Option String := none
  listen : Option Net.Socket := none
  maxHops : Option UInt8 := none
  firstTtl : Option UInt8 := none
  hopTimeout : Option Span := none
  reapInterval : Option Span := none
  logfile : Option String := none

/-- Seconds; what is negative or too long is malformed. -/
def secondsReader : Reader Span := fun s => do
  let (x, rest) ← Reader.float s
  return (← Reader.ofOption (Span.ofSeconds? x), rest)

def fields : List (Reader.Field Parts) :=
  [⟨"interface", fun p => p.interface.isSome,
      fun p => Reader.text.map fun x => { p with interface := some (String.ofList x) }⟩,
    ⟨"listen", fun p => p.listen.isSome,
      fun p => Reader.socket.map fun x => { p with listen := some x }⟩,
    ⟨"max_hops", fun p => p.maxHops.isSome,
      fun p => Reader.uint8.map fun x => { p with maxHops := some x }⟩,
    ⟨"first_ttl", fun p => p.firstTtl.isSome,
      fun p => Reader.uint8.map fun x => { p with firstTtl := some x }⟩,
    ⟨"hop_timeout", fun p => p.hopTimeout.isSome,
      fun p => secondsReader.map fun x => { p with hopTimeout := some x }⟩,
    ⟨"reap_interval", fun p => p.reapInterval.isSome,
      fun p => secondsReader.map fun x => { p with reapInterval := some x }⟩,
    ⟨"logfile", fun p => p.logfile.isSome,
      fun p => Reader.text.map fun x => { p with logfile := some (String.ofList x) }⟩]

def Parts.finish (p : Parts) : Option Config := do
  return ⟨← p.interface, ← p.listen, ← p.maxHops, ← p.firstTtl, ← p.hopTimeout, ← p.reapInterval,
    ← p.logfile⟩

def reader : Reader Config := (Reader.record fields {}).complete Parts.finish

end Config

end InbandTrace
