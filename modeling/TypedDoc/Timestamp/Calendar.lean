/-
  TypedDoc.Timestamp.Calendar — the proleptic Gregorian calendar: which days exist, and
  how many days lie between a day and 1 January 1970.
-/

namespace TypedDoc.Calendar

def isLeap (year : Int) : Bool := year % 4 = 0 && (year % 100 ≠ 0 || year % 400 = 0)

def daysIn (year : Int) (month : Nat) : Nat :=
  match month with
  | 2 => if isLeap year then 29 else 28
  | 4 | 6 | 9 | 11 => 30
  | 1 | 3 | 5 | 7 | 8 | 10 | 12 => 31
  | _ => 0

def dayExists (year : Int) (month day : Nat) : Bool := 1 ≤ day && day ≤ daysIn year month

/-- A day that exists. -/
structure Day where
  year : Int
  month : Nat
  day : Nat
  there : dayExists year month day = true

theorem month_of_daysIn {year : Int} {month : Nat} (h : daysIn year month ≠ 0) : 1 ≤ month ∧ month ≤ 12 := by
  unfold daysIn at h
  split at h <;> omega

theorem daysIn_le (year : Int) (month : Nat) : daysIn year month ≤ 31 := by
  unfold daysIn
  repeat' split
  all_goals decide

theorem month_of_dayExists {year : Int} {month day : Nat} (h : dayExists year month day = true) : 1 ≤ month ∧ month ≤ 12 := by
  simp only [dayExists, Bool.and_eq_true, decide_eq_true_eq] at h
  have hpos : daysIn year month ≠ 0 := by omega
  exact month_of_daysIn hpos

theorem day_of_dayExists {year : Int} {month day : Nat} (h : dayExists year month day = true) : 1 ≤ day ∧ day ≤ 31 := by
  simp only [dayExists, Bool.and_eq_true, decide_eq_true_eq] at h
  exact ⟨h.1, Nat.le_trans h.2 (daysIn_le year month)⟩

/-- Days of the year before the first of the month. -/
def daysBeforeMonth (year : Int) (month : Nat) : Nat :=
  (List.range (month - 1)).foldl (fun days m => days + daysIn year (m + 1)) 0

/-- Days from 1 January of year 1 to 1 January of `year`. -/
def daysBeforeYear (year : Int) : Int :=
  let y := year - 1
  365 * y + y / 4 - y / 100 + y / 400

/-- Days from 1 January 1970, which is day 0. -/
def dayNumber (year : Int) (month day : Nat) : Int :=
  daysBeforeYear year - daysBeforeYear 1970 + daysBeforeMonth year month + (day - 1)

end TypedDoc.Calendar
