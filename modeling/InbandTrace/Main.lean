import InbandTrace.Options.Parser
import InbandTrace.Options.Validation

namespace InbandTrace

structure Reply where
  text : String
  isComplaint : Bool
  code : UInt32
  deriving DecidableEq, Repr

namespace Reply

def answer (text : List Char) : Reply := ⟨String.ofList text, false, 0⟩

def complaint (text : List Char) (code : UInt32) : Reply := ⟨String.ofList text, true, code⟩

def ofError : Options.Error → Reply
  | .help => answer Options.Error.help.message
  | .version => answer Options.Error.version.message
  | e => complaint (e.message ++ ['\n']) 2

def ofOptions (o : Options) : Reply :=
  match o.invalid?, o.config? with
  | some e, _ => complaint ("Error: ".toList ++ e.message.toList ++ ['\n']) 1
  | none, none => complaint (Span.outOfRange.toList ++ ['\n']) 101
  | none, some c => answer (c.toJson.text ++ ['\n'])

def ofArguments (arguments : List String) : Reply :=
  match Options.ofArguments (arguments.map String.toList) with
  | .ok o => ofOptions o
  | .error e => ofError e

end Reply

end InbandTrace

def main (arguments : List String) : IO UInt32 := do
  let reply := InbandTrace.Reply.ofArguments arguments
  if reply.isComplaint then IO.eprint reply.text else IO.print reply.text
  return reply.code
