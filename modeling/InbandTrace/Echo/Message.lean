import InbandTrace.Json.Value

namespace InbandTrace

open Json

inductive EchoMessage where
  | latency (sequence : UInt32) (sentAt : Binary64)
  | final (id : List Char) (latencies : List Binary64)
  deriving DecidableEq, Repr

namespace EchoMessage

def toJson : EchoMessage → Value
  | .latency sequence sentAt =>
      .object
        [Value.member "type" (Value.ofString "ws-latency"),
          Value.member "seq" (Value.ofNat sequence.toNat),
          Value.member "sent_at" (.number (.float sentAt))]
  | .final id latencies =>
      .object
        [Value.member "type" (Value.ofString "ws-final"),
          Value.member "UUID" (.string id),
          Value.member "latencies" (.array (latencies.map fun x => .number (.float x)))]

def real? : Value → Option Binary64
  | .number x => some x.toBinary64
  | _ => none

def uint32? : Value → Option UInt32
  | .number (.natural n) => if n.toNat < 4294967296 then some n.toUInt32 else none
  | _ => none

def string? : Value → Option (List Char)
  | .string s => some s
  | _ => none

def reals? : Value → Option (List Binary64)
  | .array items => items.mapM real?
  | _ => none

def latency? (sequence sentAt : Value) : Option EchoMessage := do
  return .latency (← uint32? sequence) (← real? sentAt)

def final? (id latencies : Value) : Option EchoMessage := do
  return .final (← string? id) (← reals? latencies)

def single? (key : String) (members : List (List Char × Value)) : Option Value :=
  match members.filter fun m => m.1 == key.toList with
  | [m] => some m.2
  | _ => none

/-- Members that belong to no field are ignored. -/
def ofMembers? (members : List (List Char × Value)) : Option EchoMessage := do
  let tag ← (single? "type" members).bind string?
  if tag = "ws-latency".toList then
    latency? (← single? "seq" members) (← single? "sent_at" members)
  else if tag = "ws-final".toList then
    final? (← single? "UUID" members) (← single? "latencies" members)
  else none

def ofItems? : List Value → Option EchoMessage
  | [.string tag, x, y] =>
      if tag = "ws-latency".toList then latency? x y
      else if tag = "ws-final".toList then final? x y
      else none
  | _ => none

def ofValue? : Value → Option EchoMessage
  | .object members => ofMembers? members
  | .array items => ofItems? items
  | _ => none

/-- The message of a text, in which no field may be given twice. -/
def ofText? (s : List Char) : Option EchoMessage := (Value.ofTextInOrder? s).bind ofValue?

end EchoMessage

end InbandTrace
