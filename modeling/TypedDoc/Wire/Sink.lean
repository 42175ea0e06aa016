/-
  TypedDoc.Wire.Sink — where bytes are written to: what was accepted so far, how much
  more will be, and what a refused write or flush answers.

  A write that does not fit leaves what does fit in the sink and fails; after it there is
  no room, so every further write of at least one byte fails. A write of nothing succeeds.

  What else takes bytes is a `Writer` as a sink is.
-/

import TypedDoc.Error

namespace TypedDoc.Wire

structure Sink where
  written : Array UInt8
  /-- Bytes that will still be accepted; `none` is no limit. -/
  room : Option Nat
  /-- What a write beyond the room answers. -/
  full : Error
  /-- What a flush answers, if it fails. -/
  flushFault : Option Error

/-- Writing: adds to a sink, or fails having added something. -/
abbrev Encoder := EStateM Error Sink

namespace Sink

def writeFault : Error := .ioOther "write fault"

def unlimited : Sink := ⟨#[], none, writeFault, none⟩

def limited (room : Option Nat) : Sink := ⟨#[], room, writeFault, none⟩

end Sink

def put (bs : List UInt8) : Encoder Unit := fun k =>
  match k with
  | ⟨written, none, full, flushFault⟩ => .ok () ⟨written ++ bs, none, full, flushFault⟩
  | ⟨written, some room, full, flushFault⟩ =>
    if bs.length ≤ room then .ok () ⟨written ++ bs, some (room - bs.length), full, flushFault⟩
    else .error full ⟨written ++ bs.take room, some 0, full, flushFault⟩

def flush : Encoder Unit := fun k =>
  match k.flushFault with
  | none => .ok () k
  | some e => .error e k

/-- Something that takes bytes, be it with a failure after some of them. -/
class Writer (σ : Type) where
  put : List UInt8 → EStateM Error σ Unit
  flush : EStateM Error σ Unit

instance : Writer Sink := ⟨put, flush⟩

end TypedDoc.Wire
