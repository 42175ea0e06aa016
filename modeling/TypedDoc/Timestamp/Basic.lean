/-
  TypedDoc.Timestamp.Basic — calendar timestamps any part of which may be missing.

  A timestamp has up to eight fields, and the type of each holds its range: there is no
  timestamp with a field out of range. Every way to set one checks the value; a refused
  setter changes nothing. A sub-second part is a magnitude of at most 1023 in its own
  unit; an offset from UTC is a whole number of quarter hours, at most 63 either way.
-/

import TypedDoc.Error

namespace TypedDoc

inductive SubSecondUnit where
  | millis
  | micros
  | nanos
  deriving DecidableEq, Repr

namespace SubSecondUnit

def tag : SubSecondUnit → Nat
  | .millis => 0
  | .micros => 1
  | .nanos => 2

def ofTag (n : Nat) : Except Error SubSecondUnit :=
  if n = 0 then .ok .millis
  else if n = 1 then .ok .micros
  else if n = 2 then .ok .nanos
  else .error (.malformedTimestamp (.unknownUnit n))

/-- The unit in nanoseconds. -/
def toNanos : SubSecondUnit → Nat
  | .millis => 1000000
  | .micros => 1000
  | .nanos => 1

def label : SubSecondUnit → String
  | .millis => "millis"
  | .micros => "micros"
  | .nanos => "nanos"

end SubSecondUnit

def SubSecond.maxMagnitude : UInt16 := 1023

structure SubSecond where
  unit : SubSecondUnit
  magnitude : UInt16
  magnitude_le : magnitude ≤ SubSecond.maxMagnitude
  deriving DecidableEq, Repr

namespace SubSecond

def of (unit : SubSecondUnit) (magnitude : UInt16) : Except Error SubSecond :=
  if h : magnitude ≤ maxMagnitude then .ok ⟨unit, magnitude, h⟩
  else .error (.invalidTimestampField "sub_second" magnitude.toNat)

def toNanos (s : SubSecond) : Nat := s.magnitude.toNat * s.unit.toNanos

end SubSecond

def UtcOffset.maxQuarters : Int := 63

/-- An offset east of UTC. -/
structure UtcOffset where
  quarters : Int
  inRange : -UtcOffset.maxQuarters ≤ quarters ∧ quarters ≤ UtcOffset.maxQuarters
  deriving DecidableEq, Repr

namespace UtcOffset

def secondsPerQuarter : Int := 900

def utc : UtcOffset := ⟨0, by decide⟩

def ofQuarters (q : Int) : Except Error UtcOffset :=
  if h : -maxQuarters ≤ q ∧ q ≤ maxQuarters then .ok ⟨q, h⟩ else .error (.invalidTimestampField "offset" q)

/-- Whole quarter hours only. -/
def ofSeconds (s : Int) : Except Error UtcOffset :=
  let q := s / secondsPerQuarter
  if h : s % secondsPerQuarter = 0 ∧ -maxQuarters ≤ q ∧ q ≤ maxQuarters then .ok ⟨q, h.2⟩
  else .error (.invalidTimestampField "offset" s)

def seconds (o : UtcOffset) : Int := o.quarters * secondsPerQuarter

end UtcOffset

/-- A number from `lo` to `hi`. -/
structure Within (lo hi : UInt8) where
  val : UInt8
  inRange : lo ≤ val ∧ val ≤ hi
  deriving DecidableEq, Repr

namespace Within

variable {lo hi : UInt8}

def toNat (w : Within lo hi) : Nat := w.val.toNat

def ofNat (n : Nat) (h : lo.toNat ≤ n ∧ n ≤ hi.toNat) : Within lo hi where
  val := .ofNat n
  inRange := by
    have hn : (UInt8.ofNat n).toNat = n := UInt8.toNat_ofNat_of_lt' (Nat.lt_of_le_of_lt h.2 hi.toNat_lt)
    rw [UInt8.le_iff_toNat_le, UInt8.le_iff_toNat_le, hn]
    exact h

instance : CoeOut (Option (Within lo hi)) (Option UInt8) := ⟨Option.map (·.val)⟩

end Within

structure Timestamp where
  year : Option UInt16
  month : Option (Within 1 12)
  day : Option (Within 1 31)
  hour : Option (Within 0 23)
  minute : Option (Within 0 59)
  second : Option (Within 0 59)
  subSecond : Option SubSecond
  offset : Option UtcOffset
  deriving DecidableEq, Repr

namespace Timestamp

def empty : Timestamp := ⟨none, none, none, none, none, none, none, none⟩

/-! ## Setting fields -/

def checkRange (field : String) (lo hi value : UInt8) : Except Error (Within lo hi) :=
  if h : lo ≤ value ∧ value ≤ hi then .ok ⟨value, h⟩ else .error (.invalidTimestampField field value.toNat)

def checkMonth : UInt8 → Except Error (Within 1 12) := checkRange "month" 1 12

def checkDay : UInt8 → Except Error (Within 1 31) := checkRange "day" 1 31

def checkHour : UInt8 → Except Error (Within 0 23) := checkRange "hour" 0 23

def checkMinute : UInt8 → Except Error (Within 0 59) := checkRange "minute" 0 59

def checkSecond : UInt8 → Except Error (Within 0 59) := checkRange "second" 0 59

def withYear (t : Timestamp) (v : UInt16) : Timestamp := { t with year := some v }

def withMonth (t : Timestamp) (v : UInt8) : Except Error Timestamp := do
  return { t with month := some (← checkMonth v) }

def withDay (t : Timestamp) (v : UInt8) : Except Error Timestamp := do
  return { t with day := some (← checkDay v) }

def withHour (t : Timestamp) (v : UInt8) : Except Error Timestamp := do
  return { t with hour := some (← checkHour v) }

def withMinute (t : Timestamp) (v : UInt8) : Except Error Timestamp := do
  return { t with minute := some (← checkMinute v) }

def withSecond (t : Timestamp) (v : UInt8) : Except Error Timestamp := do
  return { t with second := some (← checkSecond v) }

def withSubSecond (t : Timestamp) (v : SubSecond) : Timestamp := { t with subSecond := some v }

def withOffset (t : Timestamp) (v : UtcOffset) : Timestamp := { t with offset := some v }

/-! ## Which fields are there -/

/-- One bit per field, the year's the highest. -/
def control (t : Timestamp) : UInt8 :=
  let bit (present : Bool) (weight : UInt8) : UInt8 := if present then weight else 0
  bit t.year.isSome 128 + bit t.month.isSome 64 + bit t.day.isSome 32 + bit t.hour.isSome 16
    + bit t.minute.isSome 8 + bit t.second.isSome 4 + bit t.subSecond.isSome 2 + bit t.offset.isSome 1

def isEmpty (t : Timestamp) : Bool := t.control == 0

end Timestamp

end TypedDoc
