/-
  TypedDoc.Header — the first eight bytes of a document: the signature `MOBF`, the id of
  the charset, a version byte that means nothing here, and two zeros.

  They are checked in that order, and the first that is wrong is reported. Any version is
  accepted and kept.
-/

import TypedDoc.Wire.Codec

namespace TypedDoc

open Wire

structure Header where
  charset : Charset
  version : UInt8
  deriving DecidableEq, Repr

namespace Header

def signature : List UInt8 := [0x4D, 0x4F, 0x42, 0x46]

def size : Nat := 8

/-- The header of a document that asks for nothing else. -/
def standard : Header := ⟨.utf8, 1⟩

def toBytes (h : Header) : List UInt8 := signature ++ [h.charset.toByte, h.version, 0, 0]

def ofBytes : List UInt8 → Except Error Header
  | [a, b, c, d, charset, version, y, z] =>
    if [a, b, c, d] ≠ signature then .error (.badSignature signature [a, b, c, d])
    else
      match Charset.ofByte charset with
      | .error e => .error e
      | .ok charset => if [y, z] ≠ [0, 0] then .error (.badTrailer [y, z]) else .ok ⟨charset, version⟩
  | _ => .error (.truncatedStream .fixedWidth)

def write (h : Header) : Encoder Nat := putBytes h.toBytes

def read : Decoder Header := do
  settled (ofBytes (← exactly size))

end Header

end TypedDoc
