/-
  TypedDoc.Text.Utf16 — characters to bytes and back, in big-endian UTF-16 without a
  byte-order mark.

  A character above U+FFFF is a high and a low surrogate. The reader refuses an odd
  number of bytes before it looks at them, and then any surrogate without its partner.
-/

import TypedDoc.Error

namespace TypedDoc.Text.Utf16

/-! ## Writing -/

/-- The 16-bit units of a character. -/
def unitsOf (c : Char) : List Nat :=
  let n := c.toNat
  if n < 0x10000 then [n] else [0xD800 + (n - 0x10000) / 1024, 0xDC00 + (n - 0x10000) % 1024]

def unitBytes (u : Nat) : List UInt8 := [.ofNat (u / 256), .ofNat (u % 256)]

def encode (s : String) : List UInt8 := (s.toList.flatMap unitsOf).flatMap unitBytes

/-! ## Reading -/

/-- The units of a byte string of even length. -/
def units : List UInt8 → List Nat
  | hi :: lo :: rest => (hi.toNat * 256 + lo.toNat) :: units rest
  | _ => []

def isHigh (u : Nat) : Bool := 0xD800 ≤ u && u < 0xDC00

def isLow (u : Nat) : Bool := 0xDC00 ≤ u && u < 0xE000

/-- Reads on, with the characters so far in `acc`, newest first. -/
def decodeFrom (acc : List Char) : List Nat → Except TextFlaw (List Char)
  | [] => .ok acc.reverse
  | u :: rest =>
    if isHigh u then
      match rest with
      | v :: rest' =>
        if isLow v then
          decodeFrom (Char.ofNat (0x10000 + (u - 0xD800) * 1024 + (v - 0xDC00)) :: acc) rest'
        else .error .loneSurrogate
      | [] => .error .loneSurrogate
    else if isLow u then .error .loneSurrogate
    else decodeFrom (Char.ofNat u :: acc) rest

def decode (bs : List UInt8) : Except TextFlaw String :=
  if bs.length % 2 = 1 then .error (.oddLength bs.length)
  else (decodeFrom [] (units bs)).map String.ofList

end TypedDoc.Text.Utf16
