/-
  TypedDoc.Host.Cell — a place in memory for the bytes of one document, with the failures
  it was told to show.

  A cell may have no content; what opening it answers then is a matter of the cell. New
  content replaces the old at once or not at all.
-/

import TypedDoc.Host.Faults
import TypedDoc.Wire.Sink
import TypedDoc.Wire.Supply

namespace TypedDoc.Host

open Wire

structure Cell where
  content : Option (List UInt8)
  /-- What opening it answers without content; `none` gives an empty stream. -/
  whenEmpty : Option Error
  faults : Faults
  deriving DecidableEq, Repr

namespace Cell

/-- A cell without faults, which cannot be read before it has content. -/
def memory (content : Option (List UInt8)) : Cell :=
  ⟨content, some (.ioNotFound "memory source is empty"), .none⟩

def openRead (c : Cell) : Except Error Supply :=
  match c.faults.openRead, c.content, c.whenEmpty with
  | some e, _, _ | none, none, some e => .error e
  | none, content, _ => .ok (.limited (content.getD []) c.faults.chunk c.faults.cut)

/-- Where new content is collected. -/
def openWrite (c : Cell) : Except Error Sink :=
  match c.faults.openWrite with
  | some e => .error e
  | none => .ok { Sink.limited c.faults.room with flushFault := c.faults.flush }

/-- Makes what was collected the content. -/
def commit (c : Cell) (bs : List UInt8) : Except Error Cell :=
  match c.faults.commit with
  | some e => .error e
  | none => .ok { c with content := some bs }

end Cell

end TypedDoc.Host
