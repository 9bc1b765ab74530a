import TreeWalk.Diagnostic

/-!
The place that printed text goes to. It may take only so many bytes, and it may fail to flush.
-/

namespace TreeWalk

/-- What was written so far, how many more bytes there is room for, and whether flushing fails. -/
structure Sink where
  written : ByteArray
  room : Option Nat
  flushFails : Bool

namespace Sink

/-- Takes everything. -/
def unlimited : Sink := ⟨ByteArray.empty, none, false⟩

/-- Writes a text. Of a text that does not fit, the part that fits is kept. -/
def write (text : String) (s : Sink) : Except SinkFailure Unit × Sink :=
  let bytes := text.toUTF8
  match s.room with
  | none => (.ok (), { s with written := s.written ++ bytes })
  | some n =>
    if bytes.size ≤ n then
      (.ok (), { s with written := s.written ++ bytes, room := some (n - bytes.size) })
    else (.error .full, { s with written := s.written ++ bytes.extract 0 n, room := some 0 })

def flush (s : Sink) : Except SinkFailure Unit :=
  if s.flushFails then .error .flush else .ok ()

end Sink

end TreeWalk
