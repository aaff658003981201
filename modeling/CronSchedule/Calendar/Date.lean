/-! # Dates

The proleptic Gregorian calendar, with a year 0 and negative years, between the first and
the last date that can be represented.  A date counts the days since the calendar's
origin (`Date.dayNumber`), from which the weekday follows, and every day number within
the calendar is a date again (`Date.ofDayNumber?`).
-/
namespace CronSchedule

/-- The first year of the calendar. -/
def firstYear : Int := -262143

/-- The last year of the calendar. -/
def lastYear : Int := 262142

/-- Whether a year has a 29th of February. -/
def isLeapYear (year : Int) : Bool :=
  year % 4 == 0 && (year % 100 != 0 || year % 400 == 0)

/-- The length of a month. -/
def daysInMonth (year : Int) (month : Nat) : Nat :=
  match month with
  | 2 => if isLeapYear year then 29 else 28
  | 4 | 6 | 9 | 11 => 30
  | _ => 31

/-- The number of days of a year before one of its months. -/
def daysBeforeMonth (year : Int) (month : Nat) : Nat :=
  let leapDay := if isLeapYear year then 1 else 0
  match month with
  | 0 | 1 => 0
  | 2 => 31
  | 3 => 59 + leapDay
  | 4 => 90 + leapDay
  | 5 => 120 + leapDay
  | 6 => 151 + leapDay
  | 7 => 181 + leapDay
  | 8 => 212 + leapDay
  | 9 => 243 + leapDay
  | 10 => 273 + leapDay
  | 11 => 304 + leapDay
  | 12 => 334 + leapDay
  | _ => 365 + leapDay

/-- The number of days between the first of January of the year 1 and that of a year. -/
def daysBeforeYear (year : Int) : Int :=
  365 * (year - 1) + (year - 1) / 4 - (year - 1) / 100 + (year - 1) / 400

/-- The numbers of the months of a year. -/
def monthNumbers : List Nat := [1, 2, 3, 4, 5, 6, 7, 8, 9, 10, 11, 12]

theorem daysInMonth_le (year : Int) (month : Nat) : daysInMonth year month ≤ 31 := by
  unfold daysInMonth
  split <;> try split
  all_goals decide

theorem le_daysInMonth (year : Int) (month : Nat) : 28 ≤ daysInMonth year month := by
  unfold daysInMonth
  split <;> try split
  all_goals decide

theorem daysBeforeMonth_succ (year : Int) {month : Nat} (h : 1 ≤ month ∧ month ≤ 12) :
    daysBeforeMonth year (month + 1) =
      daysBeforeMonth year month + daysInMonth year month := by
  obtain ⟨h1, h2⟩ := h
  have : month = 1 ∨ month = 2 ∨ month = 3 ∨ month = 4 ∨ month = 5 ∨ month = 6 ∨ month = 7 ∨
      month = 8 ∨ month = 9 ∨ month = 10 ∨ month = 11 ∨ month = 12 := by omega
  rcases this with h | h | h | h | h | h | h | h | h | h | h | h <;> subst h <;>
    simp only [daysBeforeMonth, daysInMonth] <;> split <;> rfl

/-- A year has 365 days, or 366 when it is a leap year. -/
theorem daysBeforeYear_succ (year : Int) :
    daysBeforeYear (year + 1) = daysBeforeYear year + daysBeforeMonth year 13 := by
  have hm : daysBeforeMonth year 13 = 365 + if isLeapYear year then 1 else 0 := rfl
  rw [hm]
  unfold daysBeforeYear
  by_cases h : isLeapYear year
  · rw [if_pos h]
    simp only [isLeapYear, Bool.and_eq_true, Bool.or_eq_true, beq_iff_eq, bne_iff_ne] at h
    omega
  · rw [if_neg h]
    simp only [isLeapYear, Bool.and_eq_true, Bool.or_eq_true, beq_iff_eq, bne_iff_ne] at h
    omega

theorem daysBeforeYear_mono {a b : Int} (h : a ≤ b) : daysBeforeYear a ≤ daysBeforeYear b := by
  unfold daysBeforeYear
  omega

theorem daysBeforeMonth_add_le (year : Int) {month : Nat} (h : 1 ≤ month ∧ month ≤ 12) :
    daysBeforeMonth year month + daysInMonth year month ≤ daysBeforeMonth year 13 := by
  rw [← daysBeforeMonth_succ year h]
  obtain ⟨h1, h2⟩ := h
  have : month = 1 ∨ month = 2 ∨ month = 3 ∨ month = 4 ∨ month = 5 ∨ month = 6 ∨ month = 7 ∨
      month = 8 ∨ month = 9 ∨ month = 10 ∨ month = 11 ∨ month = 12 := by omega
  rcases this with h | h | h | h | h | h | h | h | h | h | h | h <;> subst h <;>
    simp only [daysBeforeMonth] <;> omega

/-- A date of the calendar. -/
structure Date where
  year : Int
  month : Nat
  day : Nat
  year_mem : firstYear ≤ year ∧ year ≤ lastYear
  month_mem : 1 ≤ month ∧ month ≤ 12
  day_mem : 1 ≤ day ∧ day ≤ daysInMonth year month
  deriving DecidableEq

namespace Date

/-- The date with the given year, month and day. -/
def ofYMD? (year : Int) (month day : Nat) : Option Date :=
  if h : (firstYear ≤ year ∧ year ≤ lastYear) ∧ (1 ≤ month ∧ month ≤ 12) ∧
      (1 ≤ day ∧ day ≤ daysInMonth year month) then
    some ⟨year, month, day, h.1, h.2.1, h.2.2⟩
  else none

variable (date : Date)

/-- The number of a date, counted in days with the first of January of the year 1 as 1. -/
def dayNumber : Int :=
  daysBeforeYear date.year + daysBeforeMonth date.year date.month + date.day

/-- The weekday, Sunday being 0. -/
def weekday : Nat := (date.dayNumber % 7).toNat

/-- The first day of the following month. -/
def nextMonth? : Option Date :=
  if h : date.month < 12 then
    some ⟨date.year, date.month + 1, 1, date.year_mem, by omega,
      Nat.le_refl 1, Nat.le_trans (by decide) (le_daysInMonth _ _)⟩
  else if h : date.year < lastYear then
    some ⟨date.year + 1, 1, 1, by have := date.year_mem; omega, by decide,
      Nat.le_refl 1, Nat.le_trans (by decide) (le_daysInMonth _ _)⟩
  else none

/-- The following day. -/
def next? : Option Date :=
  if h : date.day < daysInMonth date.year date.month then
    some ⟨date.year, date.month, date.day + 1, date.year_mem, date.month_mem, by omega⟩
  else date.nextMonth?

/-- The last day of the month, where the calendar also holds the month after it. -/
def lastDayOfMonth? : Option Nat :=
  date.nextMonth?.map fun _ => daysInMonth date.year date.month

/-- The first day of the next month is one day after the last of this one. -/
theorem dayNumber_nextMonth {date next : Date} (h : date.nextMonth? = some next) :
    next.dayNumber =
      daysBeforeYear date.year + daysBeforeMonth date.year date.month +
        daysInMonth date.year date.month + 1 := by
  unfold nextMonth? at h
  split at h
  · cases h
    simp only [dayNumber]
    rw [daysBeforeMonth_succ _ date.month_mem]
    omega
  · rename_i hm
    split at h
    · cases h
      have hmonth : date.month = 12 := by have := date.month_mem; omega
      have hsum : daysBeforeMonth date.year 13 =
          daysBeforeMonth date.year 12 + daysInMonth date.year 12 :=
        daysBeforeMonth_succ date.year (by decide)
      have h1 : daysBeforeMonth (date.year + 1) 1 = 0 := rfl
      simp only [dayNumber, daysBeforeYear_succ, h1, hmonth]
      omega
    · cases h

/-- The following day has the following number. -/
theorem dayNumber_next {date next : Date} (h : date.next? = some next) :
    next.dayNumber = date.dayNumber + 1 := by
  unfold next? at h
  split at h
  · cases h
    simp only [dayNumber]
    omega
  · rename_i hd
    have hday : date.day = daysInMonth date.year date.month := by
      have := date.day_mem
      omega
    rw [dayNumber_nextMonth h, dayNumber, hday]

theorem dayNumber_lt_nextMonth {date next : Date} (h : date.nextMonth? = some next) :
    date.dayNumber < next.dayNumber := by
  have := date.day_mem
  rw [dayNumber_nextMonth h, dayNumber]
  omega

/-- A date lies within its year. -/
theorem dayNumber_mem_year (date : Date) :
    daysBeforeYear date.year < date.dayNumber ∧
      date.dayNumber ≤ daysBeforeYear (date.year + 1) := by
  have := daysBeforeMonth_add_le date.year date.month_mem
  have := date.day_mem
  rw [daysBeforeYear_succ, dayNumber]
  omega

/-- No date comes after the last year of the calendar. -/
theorem dayNumber_le (date : Date) : date.dayNumber ≤ daysBeforeYear (lastYear + 1) := by
  have h : date.year + 1 ≤ lastYear + 1 := by have := date.year_mem; omega
  exact Int.le_trans date.dayNumber_mem_year.2 (daysBeforeYear_mono h)

/-- The year in which a day number lies. -/
def yearOf (number : Int) : Int :=
  -- 400 years have 146097 days, so the first guess is off by one year at most
  let year := 400 * (number - 1) / 146097 + 1
  if number ≤ daysBeforeYear year then year - 1
  else if daysBeforeYear (year + 1) < number then year + 1
  else year

/-- The month and the day of the month that lie this many days into a list of months. -/
def monthDay? (year : Int) : List Nat → Nat → Option (Nat × Nat)
  | [], _ => none
  | month :: rest, day =>
    if day ≤ daysInMonth year month then some (month, day)
    else monthDay? year rest (day - daysInMonth year month)

/-- The date with a given day number. -/
def ofDayNumber? (number : Int) : Option Date := do
  let year := yearOf number
  let (month, day) ← monthDay? year monthNumbers (number - daysBeforeYear year).toNat
  ofYMD? year month day

/-- The year of a day number is the one whose days hold it. -/
theorem yearOf_spec (number : Int) :
    daysBeforeYear (yearOf number) < number ∧ number ≤ daysBeforeYear (yearOf number + 1) := by
  unfold yearOf
  simp only
  split
  · simp only [daysBeforeYear] at *
    omega
  · split
    · simp only [daysBeforeYear] at *
      omega
    · simp only [daysBeforeYear] at *
      omega

end Date
end CronSchedule
