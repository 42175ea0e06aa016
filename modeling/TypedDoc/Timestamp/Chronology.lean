/-
  TypedDoc.Timestamp.Chronology — local datetimes, and the part of a library of dates that
  makes them.

  A local datetime is a day that exists, a time of day, and an offset of less than a day.
  Its nanoseconds go on to two seconds, the second one being a leap second. A chronology
  makes one of a date, a time on that date and an offset, each of which it may refuse, and
  counts the seconds. The proleptic Gregorian calendar gives one.
-/

import TypedDoc.Timestamp.Calendar

namespace TypedDoc

/-- A local time with its offset from UTC in seconds. -/
structure DateTime where
  year : Int
  month : Nat
  day : Nat
  hour : Nat
  minute : Nat
  second : Nat
  nanos : Nat
  offset : Int
  deriving DecidableEq, Repr

namespace DateTime

structure Valid (d : DateTime) : Prop where
  day : Calendar.dayExists d.year d.month d.day = true
  hour : d.hour < 24
  minute : d.minute < 60
  second : d.second < 60
  nanos : d.nanos < 2000000000
  offset : -86400 < d.offset ∧ d.offset < 86400

/-- A leap second only where a minute ends. -/
def LeapFits (d : DateTime) : Prop := d.nanos < 1000000000 ∨ d.second = 59

instance (d : DateTime) : Decidable d.Valid :=
  decidable_of_iff (Calendar.dayExists d.year d.month d.day = true ∧ d.hour < 24 ∧ d.minute < 60 ∧ d.second < 60 ∧
      d.nanos < 2000000000 ∧ -86400 < d.offset ∧ d.offset < 86400)
    ⟨fun ⟨day, hour, minute, second, nanos, offset⟩ => ⟨day, hour, minute, second, nanos, offset⟩,
      fun ⟨day, hour, minute, second, nanos, offset⟩ => ⟨day, hour, minute, second, nanos, offset⟩⟩

instance (d : DateTime) : Decidable d.LeapFits := inferInstanceAs (Decidable (_ ∨ _))

def secondOfDay (d : DateTime) : Nat := d.hour * 3600 + d.minute * 60 + d.second

/-- Seconds since 1 January 1970 UTC, leap seconds not counted. -/
def unix (d : DateTime) : Int := Calendar.dayNumber d.year d.month d.day * 86400 + d.secondOfDay - d.offset

/-- The same instant, whatever the offsets. -/
def sameInstant (a b : DateTime) : Bool := a.unix == b.unix && a.nanos == b.nanos

end DateTime

/-- A local datetime that there can be. -/
structure LocalTime extends DateTime where
  valid : toDateTime.Valid
  deriving DecidableEq, Repr

structure Chronology where
  Date : Type
  /-- A date with a time of day. -/
  Naive : Type
  Offset : Type
  date? (year : Int) (month day : Nat) : Option Date
  time? (date : Date) (hour minute second nanos : Nat) : Option Naive
  /-- So many seconds east of UTC. -/
  east? (seconds : Int) : Option Offset
  at? (naive : Naive) (offset : Offset) : Option LocalTime
  /-- Seconds since 1 January 1970 UTC. -/
  unix : LocalTime → Int

namespace Chronology

/-- The same instant by what is counted, whatever the offsets. -/
def sameInstant (c : Chronology) (a b : LocalTime) : Bool := c.unix a == c.unix b && a.nanos == b.nanos

/-- Every year by the rules of the Gregorian calendar. -/
def proleptic : Chronology where
  Date := Calendar.Day
  Naive := LocalTime
  Offset := { seconds : Int // -86400 < seconds ∧ seconds < 86400 }
  date? year month day := if h : Calendar.dayExists year month day = true then some ⟨year, month, day, h⟩ else none
  time? date hour minute second nanos :=
    let d : DateTime := ⟨date.year, date.month, date.day, hour, minute, second, nanos, 0⟩
    if h : d.Valid ∧ d.LeapFits then some ⟨d, h.1⟩ else none
  east? seconds := if h : -86400 < seconds ∧ seconds < 86400 then some ⟨seconds, h⟩ else none
  at? naive offset := some ⟨{ naive.toDateTime with offset := offset.1 }, { naive.valid with offset := offset.2 }⟩
  unix d := d.toDateTime.unix

end Chronology

end TypedDoc
