/-
  TypedDoc.Timestamp.Instant — timestamps and local datetimes: capturing one, and the
  instant a timestamp denotes.

  Capturing keeps whole milliseconds, drops the leap second, and needs a year of 0 to 65535
  and an offset of whole quarter hours. A timestamp denotes an instant once it has a year, a
  month and a day; missing times of day are zero and a missing offset is UTC. The
  chronology has to make a local datetime of these.
-/

import TypedDoc.Timestamp.Basic
import TypedDoc.Timestamp.Chronology

namespace TypedDoc.Timestamp

/-- Every field, those of date and time taken from a local datetime. -/
def full (d : LocalTime) (subSecond : SubSecond) (offset : UtcOffset) : Timestamp where
  year := some (.ofNat d.year.toNat)
  month := some (.ofNat d.month (Calendar.month_of_dayExists d.valid.day))
  day := some (.ofNat d.day (Calendar.day_of_dayExists d.valid.day))
  hour := some (.ofNat d.hour ⟨Nat.zero_le _, Nat.le_of_lt_succ d.valid.hour⟩)
  minute := some (.ofNat d.minute ⟨Nat.zero_le _, Nat.le_of_lt_succ d.valid.minute⟩)
  second := some (.ofNat d.second ⟨Nat.zero_le _, Nat.le_of_lt_succ d.valid.second⟩)
  subSecond := some subSecond
  offset := some offset

def capture (d : LocalTime) : Except Error Timestamp := do
  if d.year < 0 ∨ 65536 ≤ d.year then throw (.invalidTimestampField "year" d.year)
  let offset ← UtcOffset.ofSeconds d.offset
  return full d (← SubSecond.of .millis (.ofNat (d.nanos % 1000000000 / 1000000))) offset

/-- Captures a local datetime that is given by its numbers, if there is one with these. -/
def ofDateTime (d : DateTime) : Except Error Timestamp :=
  if h : d.Valid then capture ⟨d, h⟩ else throw (.invalidTimestampField "day" d.day)

theorem ofDateTime_toDateTime (d : LocalTime) : ofDateTime d.toDateTime = capture d := dif_pos d.valid

def toDateTimeBy (c : Chronology) (t : Timestamp) : Option LocalTime := do
  let date ← c.date? (← t.year).toNat (← t.month).toNat (← t.day).toNat
  let naive ← c.time? date ((t.hour.map Within.toNat).getD 0) ((t.minute.map Within.toNat).getD 0)
    ((t.second.map Within.toNat).getD 0) ((t.subSecond.map SubSecond.toNanos).getD 0)
  let offset ← c.east? (t.offset.getD .utc).seconds
  c.at? naive offset

def toDateTime? (t : Timestamp) : Option DateTime := (t.toDateTimeBy .proleptic).map (·.toDateTime)

end TypedDoc.Timestamp
