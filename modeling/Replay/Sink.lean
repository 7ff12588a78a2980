import Replay.Error
/-!
Where a script's output goes.

A sink may have room for a limited number of bytes.  A text that does not fit is taken as far as it
does, and the rest is an error; so is everything after it.  Apart from that a sink may take a part
only of any single text.  Whatever a device does while a script runs, there is a `share` that does
the same.
-/

namespace Replay

/-- `offers` counts the texts so far, and `share` says how many bytes of each text the sink takes at
most. -/
structure Sink where
  bytes : ByteArray
  limit : Option Nat
  flushFails : Bool
  offers : Nat := 0
  share : Nat → Option Nat := fun _ => none

namespace Sink

def unlimited : Sink := { bytes := ByteArray.empty, limit := none, flushFails := false }

/-- How many bytes there is room for. -/
def room (s : Sink) : Option Nat :=
  s.limit.map fun limit => limit - s.bytes.size

/-- The first bytes of `text`, as many as the sink takes. -/
def accept (s : Sink) (text : ByteArray) : ByteArray :=
  text.extract 0 (min (s.room.getD text.size) ((s.share s.offers).getD text.size))

def write (s : Sink) (text : String) : Except OutputError Unit × Sink :=
  let accepted := s.accept text.toUTF8
  let result := if accepted.size = text.utf8ByteSize then .ok () else .error .sinkFull
  (result, { s with bytes := s.bytes ++ accepted, offers := s.offers + 1 })

def flush (s : Sink) : Except OutputError Unit :=
  if s.flushFails then .error .flushFailed else .ok ()

def text (s : Sink) : String :=
  (String.fromUTF8? s.bytes).getD ""

end Sink
end Replay
