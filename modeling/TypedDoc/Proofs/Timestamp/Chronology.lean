/-
  TypedDoc.Proofs.Timestamp.Chronology — what is asked of a chronology, and how the seconds
  of local datetimes count.

  - `Gregorian`: a chronology that makes the dates of the calendar, times with a leap second
    behind second 59 alone, and offsets of less than a day, and that makes a local datetime
    of any three. Its seconds count on within a day, from each day to the next, and against
    the offset (`CountsSeconds`).
  - `CountsSeconds.unix_eq`: such seconds are those of any count of the days, 86400 for each.
    It is by a count of the days made of the seconds themselves.
  - `Gregorian.proleptic`: the proleptic Gregorian calendar gives one.
-/

import TypedDoc.Proofs.Timestamp.Calendar
import TypedDoc.Timestamp.Chronology

namespace TypedDoc

/-! ## From a day to the next -/

namespace Calendar

/-- A day and the one behind it: in the same month, in the next, or in the next year. -/
inductive NextDay : Int → Nat → Nat → Int → Nat → Nat → Prop
  | sameMonth {year month day} : IsDay year month day → IsDay year month (day + 1) →
      NextDay year month day year month (day + 1)
  | nextMonth {year month day} : IsDay year month day → ¬IsDay year month (day + 1) → month < 12 →
      NextDay year month day year (month + 1) 1
  | nextYear {year} : NextDay year 12 31 (year + 1) 1 1

theorem CountsDays.next {count : Int → Nat → Nat → Int} (h : CountsDays count) {year year' : Int} {month month' day day' : Nat}
    (hn : NextDay year month day year' month' day') : count year' month' day' = count year month day + 1 := by
  cases hn with
  | sameMonth hd hd' => exact h.sameMonth _ _ _ hd hd'
  | nextMonth hd hlast hm => exact h.nextMonth _ _ _ hd hlast hm
  | nextYear => exact h.nextYear _

theorem NextDay.isDay {year year' : Int} {month month' day day' : Nat} (hn : NextDay year month day year' month' day') :
    IsDay year month day ∧ IsDay year' month' day' := by
  cases hn with
  | sameMonth hd hd' => exact ⟨hd, hd'⟩
  | nextMonth hd _ hm =>
    have hlong : 28 ≤ daysIn year (month + 1) := le_daysIn year (by omega)
    exact ⟨hd, isDay_iff.2 (by omega)⟩
  | nextYear => exact ⟨isDay_iff.2 (by simp [daysIn]), isDay_iff.2 (by simp [daysIn])⟩

/-- Whatever goes on by one from each day to the next counts the days. -/
theorem countsDays_of_next {count : Int → Nat → Nat → Int} (epoch : count 1970 1 1 = 0)
    (next : ∀ {year year' month month' day day'}, NextDay year month day year' month' day' →
      count year' month' day' = count year month day + 1) : CountsDays count where
  epoch := epoch
  sameMonth _ _ _ hd hd' := next (.sameMonth hd hd')
  nextMonth _ _ _ hd hlast hm := next (.nextMonth hd hlast hm)
  nextYear _ := next .nextYear

end Calendar

/-! ## Seconds -/

/-- Midnight UTC on 1 January 1970 is second 0. On the next day it is 86400 seconds later,
    at the same time and offset; on one day the seconds go with the time, and an offset
    takes as many off. -/
structure CountsSeconds (unix : LocalTime → Int) : Prop where
  epoch : ∀ d : LocalTime, d.toDateTime = ⟨1970, 1, 1, 0, 0, 0, 0, 0⟩ → unix d = 0
  nextDay : ∀ d d' : LocalTime, Calendar.NextDay d.year d.month d.day d'.year d'.month d'.day →
    d'.secondOfDay = d.secondOfDay → d'.offset = d.offset → unix d' = unix d + 86400
  sameDay : ∀ d d' : LocalTime, d'.year = d.year → d'.month = d.month → d'.day = d.day →
    unix d' - unix d = (d'.secondOfDay - d.secondOfDay) - (d'.offset - d.offset)

theorem utc_fits : -86400 < (0 : Int) ∧ (0 : Int) < 86400 := by decide

/-- The first moment of a day, UTC. -/
def LocalTime.midnight (year : Int) (month day : Nat) (h : Calendar.dayExists year month day = true) : LocalTime where
  year := year
  month := month
  day := day
  hour := 0
  minute := 0
  second := 0
  nanos := 0
  offset := 0
  valid := ⟨h, Nat.succ_pos _, Nat.succ_pos _, Nat.succ_pos _, Nat.succ_pos _, utc_fits⟩

@[simp] theorem LocalTime.secondOfDay_midnight {year : Int} {month day : Nat} (h : Calendar.dayExists year month day = true) :
    (midnight year month day h).secondOfDay = 0 := by
  simp only [midnight, DateTime.secondOfDay, Nat.zero_mul, Nat.add_zero]

namespace CountsSeconds

variable {unix : LocalTime → Int} (h : CountsSeconds unix)
include h

/-- Less 86399 for each day, the seconds at midnight count the days; so they are as many as
    days, 86400 times. -/
theorem midnight_eq {year : Int} {month day : Nat} (hd : Calendar.dayExists year month day = true) :
    unix (.midnight year month day hd) = Calendar.dayNumber year month day * 86400 := by
  let count (year : Int) (month day : Nat) : Int :=
    if hd : Calendar.dayExists year month day = true then
      unix (.midnight year month day hd) - Calendar.dayNumber year month day * 86399
    else 0
  have hcount : Calendar.CountsDays count := by
    refine Calendar.countsDays_of_next ?_ fun {y y' m m' d d'} hn => ?_
    · have hthere : Calendar.dayExists 1970 1 1 = true := by decide
      have hepoch := h.epoch (.midnight 1970 1 1 hthere) rfl
      simp only [count, dif_pos hthere, hepoch, Calendar.countsDays_dayNumber.epoch]
      omega
    · have hy := Calendar.dayExists_iff.2 hn.isDay.1
      have hy' := Calendar.dayExists_iff.2 hn.isDay.2
      have hunix := h.nextDay (.midnight y m d hy) (.midnight y' m' d' hy') hn rfl rfl
      have hnumber := Calendar.countsDays_dayNumber.next hn
      simp only [count, dif_pos hy, dif_pos hy', hunix, hnumber]
      omega
  have heq := hcount.eq_dayNumber (Calendar.dayExists_iff.1 hd)
  simp only [count, dif_pos hd] at heq
  omega

theorem unix_eq {count : Int → Nat → Nat → Int} (hcount : Calendar.CountsDays count) (d : LocalTime) :
    unix d = count d.year d.month d.day * 86400 + d.secondOfDay - d.offset := by
  have hmidnight := h.midnight_eq d.valid.day
  have hday := h.sameDay (.midnight d.year d.month d.day d.valid.day) d rfl rfl rfl
  have hutc : (LocalTime.midnight d.year d.month d.day d.valid.day).offset = 0 := rfl
  rw [LocalTime.secondOfDay_midnight, hutc] at hday
  rw [hcount.eq_dayNumber (Calendar.dayExists_iff.1 d.valid.day)]
  omega

end CountsSeconds

theorem DateTime.countsSeconds_unix : CountsSeconds fun d => d.toDateTime.unix where
  epoch d hd := by
    rw [hd]
    decide
  nextDay d d' hn hs ho := by
    have hnumber := Calendar.countsDays_dayNumber.next hn
    simp only [unix, hs, ho, hnumber]
    omega
  sameDay d d' hy hm hd := by
    simp only [unix, hy, hm, hd]
    omega

/-! ## Chronologies -/

namespace Chronology

/-- A chronology of the Gregorian calendar, in the years that 16 bits tell. -/
structure Gregorian extends Chronology where
  /-- There is a date for every day that exists. -/
  isSome_date? : ∀ {year : Int} {month day : Nat}, 0 ≤ year ∧ year ≤ 65535 →
    ((date? year month day).isSome = true ↔ Calendar.IsDay year month day)
  /-- A time may be in a leap second, behind second 59 alone. -/
  isSome_time? : ∀ (date : Date) {hour minute second nanos : Nat}, (time? date hour minute second nanos).isSome = true ↔
    hour < 24 ∧ minute < 60 ∧ second < 60 ∧ (nanos < 1000000000 ∨ nanos < 2000000000 ∧ second = 59)
  /-- An offset is less than a day. -/
  isSome_east? : ∀ {seconds : Int}, (east? seconds).isSome = true ↔ -86400 < seconds ∧ seconds < 86400
  /-- Of any three there is a local datetime, and that is what they were made from. -/
  at?_eq : ∀ {year : Int} {month day hour minute second nanos : Nat} {seconds : Int} {date : Date} {naive : Naive}
    {offset : Offset}, 0 ≤ year ∧ year ≤ 65535 → date? year month day = some date →
    time? date hour minute second nanos = some naive → east? seconds = some offset →
    ∃ d : LocalTime, at? naive offset = some d ∧ d.toDateTime = ⟨year, month, day, hour, minute, second, nanos, seconds⟩
  counts : CountsSeconds unix

instance : Coe Gregorian Chronology := ⟨Gregorian.toChronology⟩

theorem proleptic_isSome_time? (date : Calendar.Day) {hour minute second nanos : Nat} :
    (proleptic.time? date hour minute second nanos).isSome = true ↔
      hour < 24 ∧ minute < 60 ∧ second < 60 ∧ (nanos < 1000000000 ∨ nanos < 2000000000 ∧ second = 59) := by
  refine Option.isSome_dite.trans ?_
  constructor
  · rintro ⟨hvalid, hleap⟩
    have hnanos := hvalid.nanos
    exact ⟨hvalid.hour, hvalid.minute, hvalid.second, hleap.imp_right (⟨hnanos, ·⟩)⟩
  · rintro ⟨hhour, hminute, hsecond, hnanos⟩
    refine ⟨⟨date.there, hhour, hminute, hsecond, ?_, utc_fits⟩, hnanos.imp_right And.right⟩
    show nanos < 2000000000
    omega

/-- Every year by the rules of the Gregorian calendar. -/
def Gregorian.proleptic : Gregorian where
  toChronology := Chronology.proleptic
  isSome_date? _ := Option.isSome_dite.trans Calendar.dayExists_iff
  isSome_time? := proleptic_isSome_time?
  isSome_east? := Option.isSome_dite
  at?_eq _ hdate htime heast := by
    obtain ⟨_, hdate⟩ := Option.dite_none_right_eq_some.1 hdate
    obtain ⟨_, htime⟩ := Option.dite_none_right_eq_some.1 htime
    obtain ⟨_, heast⟩ := Option.dite_none_right_eq_some.1 heast
    cases hdate
    cases htime
    cases heast
    exact ⟨_, rfl, rfl⟩
  counts := DateTime.countsSeconds_unix

end Chronology

end TypedDoc
