import CronSchedule.Calendar.Date

/-! # Dates in order

Day numbers order the dates as a reader of the calendar does: first by month
(`dayNumber_le_monthStart`), then by day.  So a day number has at most one date
(`dayNumber_inj`), and `ofDayNumber?` finds it (`ofDayNumber?_eq_some_iff`): cutting a
number into year, month and day undoes counting.

The months themselves are counted by `monthIndex`.  Everything before the first day of the
next month and not before a date lies in the month of that date
(`month_eq_of_lt_nextMonth`).
-/
namespace CronSchedule

theorem daysBeforeMonth_mono (year : Int) {m n : Nat} (hm : 1 ≤ m) (hmn : m ≤ n) (hn : n ≤ 13) :
    daysBeforeMonth year m ≤ daysBeforeMonth year n := by
  obtain ⟨d, rfl⟩ := Nat.exists_eq_add_of_le hmn
  clear hmn
  induction d with
  | zero => exact Nat.le_refl _
  | succ d ih =>
    rw [← Nat.add_assoc, daysBeforeMonth_succ year ⟨by omega, by omega⟩]
    exact Nat.le_trans (ih (by omega)) (Nat.le_add_right _ _)

namespace Date

/-! ## Months -/

/-- The number of a month, counted through the years. -/
def monthIndex (date : Date) : Int := date.year * 12 + date.month

/-- The day number of the last day before the month of a date. -/
def monthStart (date : Date) : Int :=
  daysBeforeYear date.year + daysBeforeMonth date.year date.month

theorem dayNumber_eq (date : Date) : date.dayNumber = date.monthStart + date.day := rfl

theorem weekday_lt (date : Date) : date.weekday < 7 := by
  unfold weekday
  omega

theorem monthIndex_eq_iff {a b : Date} :
    a.monthIndex = b.monthIndex ↔ a.year = b.year ∧ a.month = b.month := by
  have ha := a.month_mem
  have hb := b.month_mem
  unfold monthIndex
  omega

theorem monthStart_lt (date : Date) : date.monthStart < date.dayNumber := by
  have := date.day_mem
  rw [dayNumber_eq]
  omega

/-- The dates of a month come before those of a later one. -/
theorem dayNumber_le_monthStart {a b : Date} (h : a.monthIndex < b.monthIndex) :
    a.dayNumber ≤ b.monthStart := by
  have ha := a.month_mem
  have hb := b.month_mem
  unfold monthIndex at h
  by_cases hy : a.year < b.year
  · have hend : daysBeforeYear (a.year + 1) ≤ daysBeforeYear b.year := daysBeforeYear_mono hy
    have := a.dayNumber_mem_year.2
    unfold monthStart
    omega
  · have hyear : a.year = b.year := by omega
    have hmono := daysBeforeMonth_mono a.year (m := a.month + 1) (by omega)
      (show a.month + 1 ≤ b.month by omega) (by omega)
    rw [daysBeforeMonth_succ a.year ha] at hmono
    have := a.day_mem
    rw [dayNumber_eq, monthStart, monthStart, ← hyear]
    omega

theorem monthIndex_le_of_dayNumber_le {a b : Date} (h : a.dayNumber ≤ b.dayNumber) :
    a.monthIndex ≤ b.monthIndex := by
  refine Int.not_lt.mp fun hlt => ?_
  have := dayNumber_le_monthStart hlt
  have := a.monthStart_lt
  omega

theorem year_le_of_dayNumber_le {a b : Date} (h : a.dayNumber ≤ b.dayNumber) :
    a.year ≤ b.year := by
  have hle := monthIndex_le_of_dayNumber_le h
  have ha := a.month_mem
  have hb := b.month_mem
  unfold monthIndex at hle
  omega

/-- No two dates have the same number. -/
theorem dayNumber_inj {a b : Date} (h : a.dayNumber = b.dayNumber) : a = b := by
  have hindex : a.monthIndex = b.monthIndex :=
    Int.le_antisymm (monthIndex_le_of_dayNumber_le (Int.le_of_eq h))
      (monthIndex_le_of_dayNumber_le (Int.le_of_eq h.symm))
  obtain ⟨hy, hm⟩ := monthIndex_eq_iff.mp hindex
  rw [dayNumber_eq, dayNumber_eq, monthStart, monthStart, hy, hm] at h
  have hd : a.day = b.day := by omega
  cases a
  cases b
  simp only [mk.injEq]
  exact ⟨hy, hm, hd⟩

/-! ## The next month and the next day -/

theorem monthIndex_nextMonth {date next : Date} (h : date.nextMonth? = some next) :
    next.monthIndex = date.monthIndex + 1 ∧ next.day = 1 := by
  have hm := date.month_mem
  unfold nextMonth? at h
  split at h
  · cases h
    refine ⟨?_, rfl⟩
    simp only [monthIndex]
    omega
  · split at h
    · cases h
      refine ⟨?_, rfl⟩
      simp only [monthIndex]
      omega
    · cases h

/-- What lies between a date and the next month lies in the month of the date. -/
theorem month_eq_of_lt_nextMonth {date next other : Date} (h : date.nextMonth? = some next)
    (hle : date.dayNumber ≤ other.dayNumber) (hlt : other.dayNumber < next.dayNumber) :
    other.year = date.year ∧ other.month = date.month := by
  obtain ⟨hindex, hday⟩ := monthIndex_nextMonth h
  have hfirst := monthIndex_le_of_dayNumber_le hle
  have hlast := monthIndex_le_of_dayNumber_le (Int.le_of_lt hlt)
  refine monthIndex_eq_iff.mp (Int.le_antisymm ?_ hfirst)
  refine Int.not_lt.mp fun hgt => ?_
  -- otherwise it lies in the next month, whose first day comes no later
  have hnext : other.monthIndex = next.monthIndex := by omega
  obtain ⟨hy, hm⟩ := monthIndex_eq_iff.mp hnext
  have := other.day_mem
  rw [dayNumber_eq, dayNumber_eq, monthStart, monthStart, hy, hm] at hlt
  omega

theorem exists_nextMonth {date : Date} (h : date.year < lastYear) :
    ∃ next, date.nextMonth? = some next := by
  unfold nextMonth?
  rw [dif_pos h]
  split
  · exact ⟨_, rfl⟩
  · exact ⟨_, rfl⟩

theorem exists_next {date : Date} (h : date.year < lastYear) :
    ∃ next, date.next? = some next := by
  unfold next?
  split
  · exact ⟨_, rfl⟩
  · exact exists_nextMonth h

/-! ## From a number back to its date -/

/-- The year of a day number is the only one whose days hold it. -/
theorem yearOf_eq {number year : Int} (h : daysBeforeYear year < number)
    (h' : number ≤ daysBeforeYear (year + 1)) : yearOf number = year := by
  obtain ⟨hlo, hhi⟩ := yearOf_spec number
  rcases Int.lt_trichotomy (yearOf number) year with hlt | heq | hgt
  · have := daysBeforeYear_mono (show yearOf number + 1 ≤ year from hlt)
    omega
  · exact heq
  · have := daysBeforeYear_mono (show year + 1 ≤ yearOf number from hgt)
    omega

/-- The months from `first` to December hold the days that follow those before `first`. -/
theorem monthDay?_eq_some_iff {year : Int} {count first day m d : Nat} (hfirst : 1 ≤ first)
    (hcount : first + count = 13) (hday : 1 ≤ day) :
    monthDay? year (List.range' first count) day = some (m, d) ↔
      (first ≤ m ∧ m ≤ 12) ∧ (1 ≤ d ∧ d ≤ daysInMonth year m) ∧
        daysBeforeMonth year first + day = daysBeforeMonth year m + d := by
  induction count generalizing first day with
  | zero =>
    simp only [List.range'_zero, monthDay?, reduceCtorEq, false_iff]
    rintro ⟨hm, -⟩
    omega
  | succ count ih =>
    have hmonth : 1 ≤ first ∧ first ≤ 12 := ⟨hfirst, by omega⟩
    have hsucc := daysBeforeMonth_succ year hmonth
    rw [List.range'_succ, monthDay?]
    split
    · rename_i hle
      simp only [Option.some.injEq, Prod.mk.injEq]
      constructor
      · rintro ⟨rfl, rfl⟩
        exact ⟨⟨Nat.le_refl _, by omega⟩, ⟨hday, hle⟩, rfl⟩
      · rintro ⟨⟨hm, hm'⟩, ⟨hd, hd'⟩, hsum⟩
        rcases Nat.eq_or_lt_of_le hm with rfl | hlt
        · exact ⟨rfl, by omega⟩
        · have := daysBeforeMonth_mono year (m := first + 1) (by omega) hlt (by omega)
          omega
    · rename_i hgt
      rw [ih (by omega) (by omega) (by omega)]
      constructor
      · rintro ⟨hm, hd, hsum⟩
        exact ⟨⟨by omega, hm.2⟩, hd, by omega⟩
      · rintro ⟨hm, hd, hsum⟩
        rcases Nat.eq_or_lt_of_le hm.1 with rfl | hlt
        · omega
        · exact ⟨⟨hlt, hm.2⟩, hd, by omega⟩

theorem ofYMD?_eq_some_iff {year : Int} {month day : Nat} {date : Date} :
    ofYMD? year month day = some date ↔
      date.year = year ∧ date.month = month ∧ date.day = day := by
  unfold ofYMD?
  constructor
  · intro h
    split at h
    · cases h
      exact ⟨rfl, rfl, rfl⟩
    · cases h
  · rintro ⟨rfl, rfl, rfl⟩
    rw [dif_pos ⟨date.year_mem, date.month_mem, date.day_mem⟩]

/-- A date is found under its own number and under no other. -/
theorem ofDayNumber?_eq_some_iff {number : Int} {date : Date} :
    ofDayNumber? number = some date ↔ date.dayNumber = number := by
  obtain ⟨hlo, hhi⟩ := yearOf_spec number
  have hmonths : monthNumbers = List.range' 1 12 := rfl
  have hzero : ∀ year, daysBeforeMonth year 1 = 0 := fun _ => rfl
  simp only [ofDayNumber?, Option.bind_eq_bind, Option.bind_eq_some_iff, Prod.exists, hmonths]
  constructor
  · rintro ⟨month, day, hfound, hdate⟩
    rw [monthDay?_eq_some_iff (Nat.le_refl 1) rfl (by omega)] at hfound
    obtain ⟨-, -, hsum⟩ := hfound
    obtain ⟨hy, rfl, rfl⟩ := ofYMD?_eq_some_iff.mp hdate
    have := hzero (yearOf number)
    rw [dayNumber, hy]
    omega
  · rintro rfl
    have hyear : yearOf date.dayNumber = date.year :=
      yearOf_eq date.dayNumber_mem_year.1 date.dayNumber_mem_year.2
    refine ⟨date.month, date.day, ?_, ofYMD?_eq_some_iff.mpr ⟨hyear.symm, rfl, rfl⟩⟩
    have := date.monthStart_lt
    have := date.dayNumber_mem_year.1
    rw [hyear, monthDay?_eq_some_iff (Nat.le_refl 1) rfl (by omega)]
    refine ⟨date.month_mem, date.day_mem, ?_⟩
    rw [hzero, dayNumber]
    omega

/-- Every day of a year up to the end of a month lies in one of its months. -/
theorem exists_monthDay {year : Int} {month day : Nat} (hmonth : month ≤ 12) (hday : 0 < day)
    (hle : day ≤ daysBeforeMonth year (month + 1)) :
    ∃ m d, (1 ≤ m ∧ m ≤ 12) ∧ (1 ≤ d ∧ d ≤ daysInMonth year m) ∧
      daysBeforeMonth year m + d = day := by
  induction month with
  | zero =>
    have hzero : daysBeforeMonth year (0 + 1) = 0 := rfl
    omega
  | succ month ih =>
    by_cases hbefore : day ≤ daysBeforeMonth year (month + 1)
    · exact ih (by omega) hbefore
    · have hsucc := daysBeforeMonth_succ year
        (show 1 ≤ month + 1 ∧ month + 1 ≤ 12 from ⟨by omega, hmonth⟩)
      exact ⟨month + 1, day - daysBeforeMonth year (month + 1), by omega, by omega, by omega⟩

/-- The numbers of the dates have no gaps. -/
theorem exists_dayNumber_eq {number : Int} (hfirst : daysBeforeYear firstYear < number)
    (hlast : number ≤ daysBeforeYear (lastYear + 1)) : ∃ date : Date, date.dayNumber = number := by
  obtain ⟨hlo, hhi⟩ := yearOf_spec number
  have hyear : firstYear ≤ yearOf number ∧ yearOf number ≤ lastYear := by
    constructor
    · refine Int.not_lt.mp fun hlt => ?_
      have := daysBeforeYear_mono (show yearOf number + 1 ≤ firstYear from hlt)
      omega
    · refine Int.not_lt.mp fun hlt => ?_
      have := daysBeforeYear_mono (show lastYear + 1 ≤ yearOf number from hlt)
      omega
  rw [daysBeforeYear_succ] at hhi
  obtain ⟨days, hdays⟩ := Int.eq_ofNat_of_zero_le
    (show 0 ≤ number - daysBeforeYear (yearOf number) by omega)
  have hbefore : days ≤ daysBeforeMonth (yearOf number) (12 + 1) := by
    rw [show 12 + 1 = 13 from rfl]
    omega
  obtain ⟨month, day, hmonth, hday, hsum⟩ :=
    exists_monthDay (Nat.le_refl 12) (by omega) hbefore
  refine ⟨⟨yearOf number, month, day, hyear, hmonth, hday⟩, ?_⟩
  show daysBeforeYear (yearOf number) + daysBeforeMonth (yearOf number) month + day = number
  omega

end Date
end CronSchedule
