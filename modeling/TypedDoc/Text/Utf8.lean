/-
  TypedDoc.Text.Utf8 — characters to bytes and back, in UTF-8.

  The reader takes shortest forms only: no overlong form, no surrogate, nothing above
  U+10FFFF. It stops at the first byte that cannot be read and says where:
  - `badSequence n i`: the `n` bytes from `i` on begin no character, whatever follows;
  - `cutSequence i`: the bytes from `i` to the end could still become one.
  `i` is the length of what was read before, in bytes.
-/

import TypedDoc.Error

namespace TypedDoc.Text.Utf8

/-! ## Writing -/

def encodeChar (c : Char) : List UInt8 :=
  let n := c.toNat
  if n < 0x80 then [.ofNat n]
  else if n < 0x800 then [.ofNat (0xC0 + n / 64), .ofNat (0x80 + n % 64)]
  else if n < 0x10000 then [.ofNat (0xE0 + n / 4096), .ofNat (0x80 + n / 64 % 64), .ofNat (0x80 + n % 64)]
  else
    [.ofNat (0xF0 + n / 262144), .ofNat (0x80 + n / 4096 % 64), .ofNat (0x80 + n / 64 % 64), .ofNat (0x80 + n % 64)]

def encode (s : String) : List UInt8 := s.toList.flatMap encodeChar

/-! ## Reading -/

/-- A byte that continues a character. -/
def continues (b : UInt8) : Bool := 0x80 ≤ b && b ≤ 0xBF

/-- The second byte of a three-byte form: `E0` would be overlong below `A0`, and above
    `9F` an `ED` would be a surrogate. -/
def secondOfThree (b0 b1 : UInt8) : Bool :=
  continues b1 && !(b0 == 0xE0 && b1 < 0xA0) && !(b0 == 0xED && 0x9F < b1)

/-- The second byte of a four-byte form: `F0` would be overlong below `90`, and above
    `8F` an `F4` would pass U+10FFFF. -/
def secondOfFour (b0 b1 : UInt8) : Bool :=
  continues b1 && !(b0 == 0xF0 && b1 < 0x90) && !(b0 == 0xF4 && 0x8F < b1)

def two (b0 b1 : UInt8) : Char := Char.ofNat (b0.toNat % 32 * 64 + b1.toNat % 64)

def three (b0 b1 b2 : UInt8) : Char :=
  Char.ofNat (b0.toNat % 16 * 4096 + b1.toNat % 64 * 64 + b2.toNat % 64)

def four (b0 b1 b2 b3 : UInt8) : Char :=
  Char.ofNat (b0.toNat % 8 * 262144 + b1.toNat % 64 * 4096 + b2.toNat % 64 * 64 + b3.toNat % 64)

/-- Reads on at byte `i`, with the characters so far in `acc`, newest first. -/
def decodeFrom (i : Nat) (acc : List Char) : List UInt8 → Except TextFlaw (List Char)
  | [] => .ok acc.reverse
  | b0 :: r0 =>
    if b0 < 0x80 then decodeFrom (i + 1) (Char.ofNat b0.toNat :: acc) r0
    else if b0 < 0xC2 then .error (.badSequence 1 i)
    else if b0 < 0xE0 then
      match r0 with
      | [] => .error (.cutSequence i)
      | b1 :: r1 =>
        if continues b1 then decodeFrom (i + 2) (two b0 b1 :: acc) r1 else .error (.badSequence 1 i)
    else if b0 < 0xF0 then
      match r0 with
      | [] => .error (.cutSequence i)
      | b1 :: r1 =>
        if secondOfThree b0 b1 then
          match r1 with
          | [] => .error (.cutSequence i)
          | b2 :: r2 =>
            if continues b2 then decodeFrom (i + 3) (three b0 b1 b2 :: acc) r2 else .error (.badSequence 2 i)
        else .error (.badSequence 1 i)
    else if b0 < 0xF5 then
      match r0 with
      | [] => .error (.cutSequence i)
      | b1 :: r1 =>
        if secondOfFour b0 b1 then
          match r1 with
          | [] => .error (.cutSequence i)
          | b2 :: r2 =>
            if continues b2 then
              match r2 with
              | [] => .error (.cutSequence i)
              | b3 :: r3 =>
                if continues b3 then decodeFrom (i + 4) (four b0 b1 b2 b3 :: acc) r3
                else .error (.badSequence 3 i)
            else .error (.badSequence 2 i)
        else .error (.badSequence 1 i)
    else .error (.badSequence 1 i)

def decode (bs : List UInt8) : Except TextFlaw String := (decodeFrom 0 [] bs).map String.ofList

end TypedDoc.Text.Utf8
