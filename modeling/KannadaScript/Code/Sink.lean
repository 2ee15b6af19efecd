import KannadaScript.Storage.Fault
import KannadaScript.Text.Bytes

/-!
# Sinks

A sink keeps the bytes written to it. It may have a limit, and then takes the bytes that still fit
and refuses the rest; writing nothing never fails. It may also refuse the flush that ends a piece of
code, which loses nothing that was written.

The bytes that fit are taken also when others are refused. So a refusal may leave half a character
in the sink, and what it holds is in general the beginning of some text and not a text. Once full, a
sink stays full: no write makes room.
-/

namespace KannadaScript

/-- Where code is written to. -/
structure Sink where
  /-- The bytes taken so far. -/
  written : Array UInt8 := #[]
  /-- The number of bytes that the sink takes in all, if that is limited. -/
  limit : Option Nat := none
  /-- Whether the sink refuses to be flushed. -/
  refusesFlush : Bool := false
deriving DecidableEq, Repr

namespace Sink

/-- How many of `n` further bytes the sink takes. -/
def room (s : Sink) (n : Nat) : Nat :=
  match s.limit with
  | none => n
  | some limit => min n (limit - s.written.size)

/-- Write a text. On refusal the part that fits has been taken. -/
def write (text : String) : EStateM StorageFault Sink Unit := fun s ↦
  let bs := Text.bytes text
  let taken := s.room bs.length
  let s' := { s with written := s.written ++ bs.take taken }
  if taken = bs.length then .ok () s' else .error .full s'

/-- Hand the written bytes on. -/
def flush : EStateM StorageFault Sink Unit := fun s ↦
  if s.refusesFlush then .error .flushRefused s else .ok () s

end Sink

end KannadaScript
