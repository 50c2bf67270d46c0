import InbandTrace.Log.Record
import InbandTrace.Text.Utf8

namespace InbandTrace

/-- Where a log goes to: a medium that may run full, and that may fail to flush. -/
structure Writer where
  /-- The bytes that still fit; any number if there is no limit. -/
  room : Option Nat := none
  full : Fault := ⟨"disk full"⟩
  /-- Said by flushes, counted from 1, that fail. -/
  flushFault : Nat → Option Fault := fun _ => none
  bytes : List UInt8 := []
  flushes : Nat := 0

namespace Writer

def write (w : Writer) (data : List UInt8) : Except Fault Unit × Writer :=
  match w.room with
  | none => (.ok (), { w with bytes := w.bytes ++ data })
  | some n =>
      (if n < data.length then .error w.full else .ok (),
        { w with bytes := w.bytes ++ data.take n, room := some (n - data.length) })

def flush (w : Writer) : Except Fault Unit × Writer :=
  (match w.flushFault (w.flushes + 1) with
    | some fault => .error fault
    | none => .ok (),
    { w with flushes := w.flushes + 1 })

def line (record : Json.Value) : List Char := record.text ++ ['\n']

/-- Appends a record as one line; what does not fit in whole is not flushed. -/
def append (w : Writer) (record : Json.Value) : Except Fault Unit × Writer :=
  match w.write (Text.utf8 (line record)) with
  | (.error fault, w) => (.error fault, w)
  | (.ok (), w) => w.flush

def recordTrace (w : Writer) (record : TraceRecord) : Writer := (w.append record.toJson).2

theorem append_bytes {w : Writer} (h : w.room = none) (record : Json.Value) :
    (w.append record).2.bytes = w.bytes ++ Text.utf8 (line record) := by
  simp [append, write, flush, h]

theorem append_room {w : Writer} (h : w.room = none) (record : Json.Value) :
    (w.append record).2.room = none := by
  simp [append, write, flush, h]

end Writer

end InbandTrace
