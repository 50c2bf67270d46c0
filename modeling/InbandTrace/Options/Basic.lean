import InbandTrace.Binary64.Decimal
import InbandTrace.Net.Parser
import InbandTrace.Text.Integer
import InbandTrace.Text.Terminal

namespace InbandTrace

inductive Setting where
  | listen
  | interface
  | maxHops
  | firstTtl
  | timeout
  | reapInterval
  | logfile
  | logLevel
  deriving DecidableEq, Repr

namespace Setting

def all : List Setting :=
  [.listen, .interface, .maxHops, .firstTtl, .timeout, .reapInterval, .logfile, .logLevel]

def name : Setting → String
  | .listen => "listen"
  | .interface => "interface"
  | .maxHops => "max-hops"
  | .firstTtl => "first-ttl"
  | .timeout => "timeout"
  | .reapInterval => "reap-interval"
  | .logfile => "logfile"
  | .logLevel => "log-level"

def short? : Setting → Option Char
  | .listen => some 'l'
  | .interface => some 'i'
  | .maxHops => some 'm'
  | _ => none

def description : Setting → String
  | .listen => "Address to accept WebSocket connections on"
  | .interface => "Interface client connections arrive on (ICMP replies are captured here)"
  | .maxHops => "Maximum TTL (hops) probed per session"
  | .firstTtl => "TTL of the first probe"
  | .timeout => "Per-hop timeout in seconds"
  | .reapInterval => "Interval in seconds between sweeps of expired probes"
  | .logfile => "Append-only JSON-lines result log"
  | .logLevel => "Diagnostic log filter (overridden by RUST_LOG)"

def defaultText : Setting → String
  | .listen => "0.0.0.0:8080"
  | .interface => "eth0"
  | .maxHops => "30"
  | .firstTtl => "1"
  | .timeout => "1.2"
  | .reapInterval => "1.0"
  | .logfile => "logFile.jsonl"
  | .logLevel => "info"

def placeholder (s : Setting) : List Char :=
  s.name.toList.map fun c => if c = '-' then '_' else c.toUpper

def usage (s : Setting) : List Char :=
  "--".toList ++ s.name.toList ++ " <".toList ++ s.placeholder ++ ['>']

end Setting

structure Options where
  listen : Net.Socket := .v4 .unspecified 8080
  interface : List Char := "eth0".toList
  maxHops : UInt8 := 30
  firstTtl : UInt8 := 1
  /-- Seconds. -/
  timeout : Binary64 := .ofRatio false 12 10
  /-- Seconds. -/
  reapInterval : Binary64 := .ofNat 1
  logfile : List Char := "logFile.jsonl".toList
  logLevel : List Char := "info".toList
  deriving DecidableEq, Repr

namespace Options

inductive Reason where
  | integer (error : Text.IntegerError)
  | range (n : Int)
  | float (error : Binary64.ReadError)
  | socket
  deriving DecidableEq, Repr

def intText (n : Int) : List Char :=
  if n < 0 then '-' :: Text.decimal n.natAbs else Text.decimal n.natAbs

def Reason.message : Reason → List Char
  | .integer e => e.message.toList
  | .range n => intText n ++ " is not in 0..=255".toList
  | .float e => e.message.toList
  | .socket => "invalid socket address syntax".toList

inductive Error where
  | help
  | version
  | unknown (argument : List Char)
  | missing (setting : Setting)
  | repeated (setting : Setting)
  | invalid (setting : Setting) (value : List Char) (reason : Reason)
  | surplus (option : String) (value : List Char)
  deriving DecidableEq, Repr

def quoted (s : List Char) : List Char := '\'' :: s ++ ['\'']

def quotedShown (s : List Char) : List Char := quoted (Text.shown s)

def versionText : List Char := "zerotrace 0.1.0\n".toList

def helpRows : List (List Char × List Char) :=
  Setting.all.map (fun s =>
    let short := match s.short? with
      | some c => "  -".toList ++ [c, ',', ' ']
      | none => "      ".toList
    (short ++ s.usage,
      s.description.toList ++ " [default: ".toList ++ s.defaultText.toList ++ [']']))
  ++ [("  -h, --help".toList, "Print help".toList),
    ("  -V, --version".toList, "Print version".toList)]

def helpLines : List (List Char) :=
  let width := helpRows.foldl (fun n r => max n r.1.length) 0
  helpRows.map fun r => r.1 ++ List.replicate (width + 2 - r.1.length) ' ' ++ r.2 ++ ['\n']

def helpText : List Char :=
  "Blind in-connection traceroute (0trace) service for VPN detection\n\n".toList
    ++ "Usage: zerotrace [OPTIONS]\n\nOptions:\n".toList ++ helpLines.flatten

def firstLine (s : List Char) : List Char :=
  let line := s.takeWhile (· != '\n')
  if line.length < s.length ∧ line.getLast? = some '\r' then line.dropLast else line

def Error.message : Error → List Char
  | .help => helpText
  | .version => versionText
  | .unknown argument =>
      firstLine ("error: unexpected argument ".toList ++ quotedShown argument ++ " found".toList)
  | .missing s =>
      "error: a value is required for ".toList ++ quoted s.usage
        ++ " but none was supplied".toList
  | .repeated s =>
      "error: the argument ".toList ++ quoted s.usage
        ++ " cannot be used multiple times".toList
  | .invalid s value reason =>
      firstLine ("error: invalid value ".toList ++ quotedShown value ++ " for ".toList
        ++ quoted s.usage ++ ": ".toList ++ reason.message)
  | .surplus option value =>
      firstLine ("error: unexpected value ".toList ++ quotedShown value ++ " for ".toList
        ++ quoted option.toList ++ " found; no more were expected".toList)

def readByte (s : List Char) : Except Reason UInt8 :=
  match Text.readInteger s with
  | .error e => .error (.integer e)
  | .ok n => if 0 ≤ n ∧ n ≤ 255 then .ok n.toNat.toUInt8 else .error (.range n)

def readFloat (s : List Char) : Except Reason Binary64 :=
  match Binary64.ofText s with
  | .error e => .error (.float e)
  | .ok x => .ok x

def readSocket (s : List Char) : Except Reason Net.Socket :=
  match Net.Socket.ofText? s with
  | none => .error .socket
  | some x => .ok x

def assign (o : Options) (s : Setting) (value : List Char) : Except Error Options :=
  let read {α : Type} (r : Except Reason α) (set : α → Options) : Except Error Options :=
    match r with
    | .ok x => .ok (set x)
    | .error reason => .error (.invalid s value reason)
  match s with
  | .listen => read (readSocket value) fun x => { o with listen := x }
  | .interface => .ok { o with interface := value }
  | .maxHops => read (readByte value) fun x => { o with maxHops := x }
  | .firstTtl => read (readByte value) fun x => { o with firstTtl := x }
  | .timeout => read (readFloat value) fun x => { o with timeout := x }
  | .reapInterval => read (readFloat value) fun x => { o with reapInterval := x }
  | .logfile => if value = [] then .error (.missing .logfile) else .ok { o with logfile := value }
  | .logLevel => .ok { o with logLevel := value }

end Options

end InbandTrace
