/-
  TypedDoc.Timestamp.Wire — timestamps as bytes: a control byte that says which fields
  follow, then those fields, year to offset.

    year          two bytes           month to second   one byte each
    sub-second    two bytes: unit tag in the high six bits, magnitude in the low ten
    offset        one byte: sign in bit 7, quarter hours in the low six bits

  A timestamp without fields has no wire form. The reader refuses every byte string that
  no timestamp is written as: a control byte of zero, a field out of range, a tag without
  a unit, an offset with bit 6 set or a negative zero.
-/

import TypedDoc.Timestamp.Basic
import TypedDoc.Wire.Codec

namespace TypedDoc

open Wire

namespace SubSecond

def toWire (s : SubSecond) : Nat := s.unit.tag * 1024 + s.magnitude.toNat

theorem lowBits_le (raw : Nat) : UInt16.ofNat (raw % 1024) ≤ maxMagnitude := by
  rw [UInt16.le_iff_toNat_le, UInt16.toNat_ofNat']
  have : maxMagnitude.toNat = 1023 := rfl
  omega

def ofWire (raw : Nat) : Except Error SubSecond := do
  return ⟨← SubSecondUnit.ofTag (raw / 1024), .ofNat (raw % 1024), lowBits_le raw⟩

end SubSecond

namespace UtcOffset

def toWire (o : UtcOffset) : UInt8 :=
  if o.quarters < 0 then .ofNat (128 + o.quarters.natAbs) else .ofNat o.quarters.natAbs

/-- So many quarter hours, east or west; the low six bits of a byte are never too many. -/
def ofLowBits (east : Bool) (n : Nat) : UtcOffset :=
  ⟨if east then (n % 64 : Nat) else -(n % 64 : Nat), by simp only [maxQuarters]; split <;> omega⟩

def ofWire (raw : UInt8) : Except Error UtcOffset :=
  if raw.toNat / 64 % 2 = 1 then .error (.malformedTimestamp (.reservedOffsetBit raw))
  else if raw.toNat < 128 then .ok (ofLowBits true raw.toNat)
  else if raw.toNat % 64 = 0 then .error (.malformedTimestamp .negativeZeroOffset)
  else .ok (ofLowBits false raw.toNat)

end UtcOffset

namespace Timestamp

/-! ## Writing -/

def wire (t : Timestamp) : List UInt8 :=
  t.control :: (
    (t.year.map (BigEndian.toBytes 2 ·.toNat)).getD []
    ++ (t.month.map (·.val)).toList ++ (t.day.map (·.val)).toList ++ (t.hour.map (·.val)).toList
    ++ (t.minute.map (·.val)).toList ++ (t.second.map (·.val)).toList
    ++ (t.subSecond.map (BigEndian.toBytes 2 ·.toWire)).getD []
    ++ (t.offset.map UtcOffset.toWire).toList)

def write (t : Timestamp) : Encoder Nat :=
  if t.isEmpty then throw (.malformedTimestamp .nothingToEncode) else putBytes t.wire

/-! ## Reading -/

/-- On the wire a field out of range is damage, not misuse. -/
def blameBytes {α : Type} : Except Error α → Except Error α
  | .error (.invalidTimestampField field value) => .error (.malformedTimestamp (.outOfRange field value))
  | r => r

/-- A field of the control byte `c`: read and checked if its bit is set. -/
def field {α : Type} (c weight : UInt8) (take : Decoder α) : Decoder (Option α) :=
  if c &&& weight = 0 then pure none else some <$> take

def smallField {lo hi : UInt8} (check : UInt8 → Except Error (Within lo hi)) : Decoder (Within lo hi) := do
  settled (blameBytes (check (← takeByte)))

def read : Decoder Timestamp := do
  let c ← takeByte
  if c = 0 then throw (.malformedTimestamp .zeroControl)
  let year ← field c 128 (UInt16.ofNat <$> takeNat 2)
  let month ← field c 64 (smallField checkMonth)
  let day ← field c 32 (smallField checkDay)
  let hour ← field c 16 (smallField checkHour)
  let minute ← field c 8 (smallField checkMinute)
  let second ← field c 4 (smallField checkSecond)
  let subSecond ← field c 2 (takeNat 2 >>= fun raw => settled (SubSecond.ofWire raw))
  let offset ← field c 1 (takeByte >>= fun raw => settled (UtcOffset.ofWire raw))
  return ⟨year, month, day, hour, minute, second, subSecond, offset⟩

end Timestamp

end TypedDoc
