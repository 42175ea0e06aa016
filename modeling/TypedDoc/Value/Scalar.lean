/-
  TypedDoc.Value.Scalar — the nine kinds of value that hold no other value, and their
  bytes.

  Seven have a fixed width; strings and timestamps do not. A boolean is written as 0 or 1
  and any byte but 0 reads as true. Strings are written in the charset of the document.
-/

import TypedDoc.Ieee
import TypedDoc.Kind
import TypedDoc.Timestamp.Wire

namespace TypedDoc

open Wire

inductive Scalar where
  | boolean (v : Bool)
  | byte (v : Int8)
  | short (v : Int16)
  | int (v : Int32)
  | long (v : Int64)
  | float (v : Single)
  | double (v : Double)
  | string (v : String)
  | timestamp (v : Timestamp)
  deriving DecidableEq, Repr

namespace Scalar

def kind : Scalar → Kind
  | .boolean _ => .boolean
  | .byte _ => .byte
  | .short _ => .short
  | .int _ => .int
  | .long _ => .long
  | .float _ => .float
  | .double _ => .double
  | .string _ => .string
  | .timestamp _ => .timestamp

/-- Equality of contents; floats compare as IEEE-754 has it. -/
def same : Scalar → Scalar → Bool
  | .float x, .float y => x.same y
  | .double x, .double y => x.same y
  | x, y => x == y

def write (c : Charset) : Scalar → Encoder Nat
  | .boolean v => putBytes [if v then 1 else 0]
  | .byte v => putNat 1 v.toUInt8.toNat
  | .short v => putNat 2 v.toUInt16.toNat
  | .int v => putNat 4 v.toUInt32.toNat
  | .long v => putNat 8 v.toUInt64.toNat
  | .float v => putNat 4 v.bits.toNat
  | .double v => putNat 8 v.bits.toNat
  | .string v => putString c v
  | .timestamp v => v.write

end Scalar

namespace Wire

def takeBoolean : Decoder Bool := do
  return (← takeByte) != 0

def takeInt8 : Decoder Int8 := do
  return (UInt8.ofNat (← takeNat 1)).toInt8

def takeInt16 : Decoder Int16 := do
  return (UInt16.ofNat (← takeNat 2)).toInt16

def takeInt32 : Decoder Int32 := do
  return (UInt32.ofNat (← takeNat 4)).toInt32

def takeInt64 : Decoder Int64 := do
  return (UInt64.ofNat (← takeNat 8)).toInt64

def takeSingle : Decoder Single := do
  return ⟨.ofNat (← takeNat 4)⟩

def takeDouble : Decoder Double := do
  return ⟨.ofNat (← takeNat 8)⟩

end Wire

end TypedDoc
