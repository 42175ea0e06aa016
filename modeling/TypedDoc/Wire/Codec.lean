/-
  TypedDoc.Wire.Codec — the primitives every part of a document is written with: bytes,
  big-endian numbers, 32-bit counts, and strings as a count of bytes and the bytes.

  Each writer returns the number of bytes it wrote. A count that does not fit 32 bits is
  refused before anything is written. A string is read as far as the stream goes, and one
  that falls short is reported with both lengths.
-/

import TypedDoc.Charset
import TypedDoc.Wire.BigEndian
import TypedDoc.Wire.Sink
import TypedDoc.Wire.Supply

namespace TypedDoc.Wire

/-- The first length that a 32-bit count cannot express. -/
def countLimit : Nat := 4294967296

/-! ## Writing -/

def putBytes (bs : List UInt8) : Encoder Nat := do
  put bs
  return bs.length

def putNat (width n : Nat) : Encoder Nat := putBytes (BigEndian.toBytes width n)

def putCount (n : Nat) : Encoder Nat :=
  if n < countLimit then putNat 4 n else throw (.lengthOverflow n)

def putString (c : Charset) (s : String) : Encoder Nat := do
  let bs := c.encode s
  let counted ← putCount bs.length
  let body ← putBytes bs
  return counted + body

/-! ## Reading -/

def takeNat (width : Nat) : Decoder Nat := do
  return BigEndian.ofBytes (← exactly width)

def takeByte : Decoder UInt8 := do
  return UInt8.ofNat (← takeNat 1)

def takeCount : Decoder Nat := takeNat 4

/-- Passes a result on, taking nothing. -/
def settled {α : Type} : Except Error α → Decoder α
  | .ok a => pure a
  | .error e => throw e

def takeString (c : Charset) : Decoder String := do
  let declared ← takeCount
  let bs ← upTo declared
  if bs.length = declared then settled (c.decode bs)
  else throw (.truncatedStream (.stringBody declared bs.length))

end TypedDoc.Wire
