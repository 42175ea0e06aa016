/-
  TypedDoc.Proofs.Timestamp.Calendar — the days of the Gregorian calendar and their numbers.

  - `IsDay`: which days there are, by the length of the months and the rule for leap years;
    they are the days that exist (`dayExists_iff`).
  - `CountsDays`: 1 January 1970 is day 0, and the day behind a day has the next number, be
    it in the same month, in the next or in the next year. The day number counts like that
    (`countsDays_dayNumber`), in every year before and after, and nothing else does
    (`CountsDays.eq_dayNumber`).
-/

import Mathlib.Data.Int.Init
import TypedDoc.Timestamp.Calendar

namespace TypedDoc.Calendar

/-! ## The days there are -/

/-- Thirty days have April, June, September and November. A year has a 29 February if 4
    divides it, a whole century only if 400 does. -/
structure IsDay (year : Int) (month day : Nat) : Prop where
  months : 1 ≤ month ∧ month ≤ 12
  days : 1 ≤ day ∧ day ≤ 31
  short : month = 4 ∨ month = 6 ∨ month = 9 ∨ month = 11 → day ≤ 30
  february : month = 2 → day ≤ 29
  leapDay : month = 2 → day = 29 → 4 ∣ year ∧ (100 ∣ year → 400 ∣ year)

theorem isLeap_iff {year : Int} : isLeap year = true ↔ 4 ∣ year ∧ (100 ∣ year → 400 ∣ year) := by
  simp only [isLeap, Bool.and_eq_true, Bool.or_eq_true, decide_eq_true_eq]
  omega

theorem daysIn_eq (year : Int) (month : Nat) : daysIn year month =
    if month = 2 then if isLeap year then 29 else 28
    else if month = 4 ∨ month = 6 ∨ month = 9 ∨ month = 11 then 30
    else if 1 ≤ month ∧ month ≤ 12 then 31 else 0 := by
  unfold daysIn
  split
  all_goals try rfl
  simp only [imp_false] at *
  rw [if_neg (by assumption), if_neg (by omega), if_neg (by omega)]

theorem dayExists_iff {year : Int} {month day : Nat} : dayExists year month day = true ↔ IsDay year month day := by
  simp only [dayExists, Bool.and_eq_true, decide_eq_true_eq, daysIn_eq]
  constructor
  · rintro ⟨hday, hle⟩
    repeat' split at hle
    · have hleap := isLeap_iff.1 ‹_›
      constructor <;> omega
    · constructor <;> omega
    · constructor <;> omega
    · constructor <;> omega
    · omega
  · intro h
    have hmonth := h.months
    have hday := h.days
    refine ⟨hday.1, ?_⟩
    split
    · split
      · exact h.february ‹_›
      · rename_i h2 hleap
        rw [isLeap_iff] at hleap
        have := h.february h2
        have : day ≠ 29 := fun h29 => hleap (h.leapDay h2 h29)
        omega
    split
    · exact h.short ‹_›
    · exact hday.2

theorem isDay_iff {year : Int} {month day : Nat} : IsDay year month day ↔ 1 ≤ day ∧ day ≤ daysIn year month := by
  rw [← dayExists_iff]
  simp only [dayExists, Bool.and_eq_true, decide_eq_true_eq]

theorem le_daysIn (year : Int) {month : Nat} (h : 1 ≤ month ∧ month ≤ 12) : 28 ≤ daysIn year month := by
  rw [daysIn_eq]
  repeat' split
  all_goals omega

/-! ## Months and years -/

theorem daysBeforeMonth_succ (year : Int) {month : Nat} (h : 1 ≤ month) :
    daysBeforeMonth year (month + 1) = daysBeforeMonth year month + daysIn year month := by
  obtain ⟨m, rfl⟩ : ∃ m, month = m + 1 := ⟨month - 1, by omega⟩
  simp only [daysBeforeMonth, Nat.add_sub_cancel, List.range_succ, List.foldl_append, List.foldl_cons, List.foldl_nil]

theorem daysBeforeMonth_december (year : Int) : daysBeforeMonth year 12 = if isLeap year then 335 else 334 := by
  simp only [daysBeforeMonth, List.range, List.range.loop, List.foldl_cons, List.foldl_nil, daysIn]
  split <;> rfl

/-- The rule for leap years and the length of February come to the same. -/
theorem daysBeforeYear_succ (year : Int) :
    daysBeforeYear (year + 1) = daysBeforeYear year + daysBeforeMonth year 12 + 31 := by
  have hleap := @isLeap_iff year
  simp only [daysBeforeYear, daysBeforeMonth_december]
  split
  · have := hleap.1 ‹_›
    omega
  · have := mt hleap.2 ‹_›
    omega

/-! ## Counting days -/

structure CountsDays (count : Int → Nat → Nat → Int) : Prop where
  epoch : count 1970 1 1 = 0
  sameMonth : ∀ year month day, IsDay year month day → IsDay year month (day + 1) →
    count year month (day + 1) = count year month day + 1
  nextMonth : ∀ year month day, IsDay year month day → ¬IsDay year month (day + 1) → month < 12 →
    count year (month + 1) 1 = count year month day + 1
  nextYear : ∀ year, count (year + 1) 1 1 = count year 12 31 + 1

theorem countsDays_dayNumber : CountsDays dayNumber where
  epoch := by decide
  sameMonth := by
    intro year month day h _
    have := h.days
    simp only [dayNumber]
    omega
  nextMonth := by
    intro year month day h hlast _
    have hle := isDay_iff.1 h
    have hday : day = daysIn year month := by
      rw [isDay_iff] at hlast
      omega
    simp only [dayNumber, daysBeforeMonth_succ year h.months.1]
    omega
  nextYear := by
    intro year
    have hjanuary : daysBeforeMonth (year + 1) 1 = 0 := rfl
    simp only [dayNumber, daysBeforeYear_succ, hjanuary]
    omega

namespace CountsDays

variable {count : Int → Nat → Nat → Int} (h : CountsDays count)
include h

/-- From the first of a month on, by the day. -/
theorem of_first {year : Int} {month day : Nat} (hday : IsDay year month day) :
    count year month day = count year month 1 + (day - 1) := by
  induction day with
  | zero => exact absurd hday.days.1 (by omega)
  | succ day ih =>
    rcases Nat.eq_zero_or_pos day with rfl | hpos
    · simp
    · have hbefore : IsDay year month day := by
        rw [isDay_iff] at hday ⊢
        omega
      rw [h.sameMonth year month day hbefore hday, ih hbefore]
      omega

/-- From new year's day on, by the month. -/
theorem of_newYear {year : Int} {month : Nat} (hmonth : 1 ≤ month ∧ month ≤ 12) :
    count year month 1 = count year 1 1 + daysBeforeMonth year month := by
  induction month with
  | zero => exact absurd hmonth.1 (by omega)
  | succ month ih =>
    rcases Nat.eq_zero_or_pos month with rfl | hpos
    · simp [daysBeforeMonth]
    · have hlong : 28 ≤ daysIn year month := le_daysIn year (by omega)
      have hlast : IsDay year month (daysIn year month) := isDay_iff.2 (by omega)
      have hover : ¬IsDay year month (daysIn year month + 1) := by
        rw [isDay_iff]
        omega
      rw [h.nextMonth year month _ hlast hover (by omega), h.of_first hlast, ih (by omega), daysBeforeMonth_succ year hpos]
      omega

theorem next_newYear (year : Int) : count (year + 1) 1 1 = count year 1 1 + daysBeforeMonth year 12 + 31 := by
  have hlast : IsDay year 12 31 := isDay_iff.2 (by simp [daysIn])
  rw [h.nextYear, h.of_first hlast, h.of_newYear (by omega)]
  omega

/-- Forwards and backwards from 1970, by the year. -/
theorem newYear (year : Int) : count year 1 1 = daysBeforeYear year - daysBeforeYear 1970 := by
  induction year using Int.inductionOn' (b := 1970) with
  | zero => rw [h.epoch, Int.sub_self]
  | succ k _ ih =>
    rw [h.next_newYear, ih, daysBeforeYear_succ]
    omega
  | pred k _ ih =>
    have hnext := h.next_newYear (k - 1)
    have hyear := daysBeforeYear_succ (k - 1)
    rw [Int.sub_add_cancel] at hnext hyear
    omega

/-- There is no other way to count the days. -/
theorem eq_dayNumber {year : Int} {month day : Nat} (hday : IsDay year month day) :
    count year month day = dayNumber year month day := by
  rw [h.of_first hday, h.of_newYear hday.months, h.newYear, dayNumber]

end CountsDays

end TypedDoc.Calendar
