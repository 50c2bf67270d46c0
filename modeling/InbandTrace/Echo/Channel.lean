import InbandTrace.Echo.Message
import InbandTrace.Log.Lines
import InbandTrace.Uuid

namespace InbandTrace

inductive Incoming where
  | text (s : List Char)
  | binary (data : List UInt8)
  | ping (payload : List UInt8)
  | pong (payload : List UInt8)
  | close
  | broken (fault : Fault)
  deriving DecidableEq, Repr

inductive Outgoing where
  | text (s : List Char)
  | binary (data : List UInt8)
  | pong (payload : List UInt8)
  | close
  deriving DecidableEq, Repr

structure EchoChannel where
  client : Net.Ip
  log : Writer := {}
  /-- Why a frame cannot be sent after so many others. -/
  sendFault : Nat → Option Fault := fun _ => none
  sent : List Outgoing := []
  isOpen : Bool := true

namespace EchoChannel

/-- The longest payload of a control frame. -/
def controlLimit : Nat := 125

def content? : Incoming → Option (List Char)
  | .text s => some s
  | .binary data => Text.ofUtf8? data
  | _ => none

def understand? (m : Incoming) : Option (Json.Value × EchoMessage) := do
  let value ← Json.Value.ofText? (← content? m)
  return (value, ← EchoMessage.ofValue? value)

def isLogged : EchoMessage → Bool
  | .final id _ => (Uuid.ofText id).toOption.isSome
  | .latency .. => false

def logMessage (c : EchoChannel) (now : Timestamp) (value : Json.Value) (m : EchoMessage) :
    EchoChannel :=
  if isLogged m then
    { c with log := (c.log.append (EchoRecord.toJson ⟨c.client, now, value⟩)).2 }
  else c

def send (c : EchoChannel) (frame : Outgoing) : EchoChannel :=
  match c.sendFault c.sent.length with
  | some _ => { c with isOpen := false }
  | none => { c with sent := c.sent ++ [frame] }

def reject (c : EchoChannel) : EchoChannel := { c.send .close with isOpen := false }

def answer (c : EchoChannel) (now : Timestamp) (m : Incoming) (frame : Outgoing) : EchoChannel :=
  match understand? m with
  | some (value, message) => (c.logMessage now value message).send frame
  | none => c.reject

def breaks : Incoming → Bool
  | .ping payload | .pong payload => decide (controlLimit < payload.length)
  | .broken _ => true
  | .text _ | .binary _ | .close => false

def receive (c : EchoChannel) (now : Timestamp) (m : Incoming) : EchoChannel :=
  if !c.isOpen then c
  else if breaks m then c.reject
  else
    match m with
    | .text s => c.answer now m (.text s)
    | .binary data => c.answer now m (.binary data)
    | .ping payload => c.send (.pong payload)
    | .pong _ | .broken _ => c
    | .close => { c with isOpen := false }

def run (c : EchoChannel) (messages : List (Timestamp × Incoming)) : EchoChannel :=
  messages.foldl (fun c m => c.receive m.1 m.2) c

theorem receive_of_not_isOpen {c : EchoChannel} (h : c.isOpen = false) (now : Timestamp)
    (m : Incoming) : c.receive now m = c := by
  simp [receive, h]

theorem run_append (c : EchoChannel) (xs ys : List (Timestamp × Incoming)) :
    c.run (xs ++ ys) = (c.run xs).run ys := by
  simp [run]

end EchoChannel

end InbandTrace
