import CronSchedule.Proofs.Calendar.MonthDays
import Mathlib.Data.Nat.Dist

/-! # Working days

The working day nearest to a day of a month, said of the calendar alone: a date from Monday to
Friday that every other such date of the month is strictly farther from
(`IsNearestWorkday`).  Each day of each month has one (`exists_isNearestWorkday`) and no
second one (`IsNearestWorkday.unique`).

A Saturday and a Sunday have a working day next to them, which may lie outside the month; then
the nearest one is on the other side, two days away (`nearestWorkday?_cases`).  What a pattern
asks about a date is whether it is this working day (`nearestWorkdayOf?_eq_some_iff`).
-/
namespace CronSchedule

namespace Date

variable {a b c date : Date} {day : Nat}

/-- Whether a date falls on Monday to Friday. -/
def IsWorkday (date : Date) : Prop := 1 ≤ date.weekday ∧ date.weekday ≤ 5

/-- Whether a date is the working day nearest to a day of its month. -/
structure IsNearestWorkday (date : Date) (day : Nat) : Prop where
  inMonth : 1 ≤ day ∧ day ≤ daysInMonth date.year date.month
  workday : date.IsWorkday
  /-- Every other working day of the month is farther away. -/
  nearest : ∀ other, SameMonth other date → other.IsWorkday → other ≠ date →
    Nat.dist date.day day < Nat.dist other.day day

namespace SameMonth

theorem symm (h : SameMonth a b) : SameMonth b a := ⟨h.year.symm, h.month.symm⟩

theorem trans (h : SameMonth a b) (h' : SameMonth b c) : SameMonth a c :=
  ⟨h.year.trans h'.year, h.month.trans h'.month⟩

/-- Within a month the weekday goes on as the day does. -/
theorem weekday_add_day (h : SameMonth a b) :
    (a.weekday + b.day) % 7 = (b.weekday + a.day) % 7 := by
  have hstart : a.monthStart = b.monthStart := by
    rw [monthStart, monthStart, h.year, h.month]
  rw [weekday, weekday, dayNumber_eq, dayNumber_eq, hstart]
  omega

end SameMonth

theorem IsNearestWorkday.unique (h : a.IsNearestWorkday day) (h' : b.IsNearestWorkday day)
    (hmonth : SameMonth a b) : a = b := by
  by_contra hne
  have hnear := h.nearest b hmonth.symm h'.workday (Ne.symm hne)
  have hnear' := h'.nearest a hmonth h.workday hne
  omega

/-- Where the working day that is found for a date lies. -/
theorem nearestWorkday?_cases (h : date.year < lastYear) : ∃ target,
    date.nearestWorkday? = some target ∧
      (1 ≤ date.weekday ∧ date.weekday ≤ 5 ∧ target = date.day ∨
        date.weekday = 6 ∧ (date.day = 1 ∧ target = 3 ∨ 1 < date.day ∧ target + 1 = date.day) ∨
          date.weekday = 0 ∧
            (date.day = daysInMonth date.year date.month ∧ target + 2 = date.day ∨
              date.day < daysInMonth date.year date.month ∧ target = date.day + 1)) := by
  have hlength := le_daysInMonth date.year date.month
  have hday := date.day_mem
  have hweekday := date.weekday_lt
  rw [nearestWorkday?, lastDayOfMonth?_eq h, Option.map_some]
  refine ⟨_, rfl, ?_⟩
  by_cases hsaturday : date.weekday = 6
  · rw [if_pos hsaturday]
    by_cases hfirst : date.day = 1
    · rw [if_pos hfirst]
      omega
    · rw [if_neg hfirst]
      omega
  · rw [if_neg hsaturday]
    by_cases hsunday : date.weekday = 0
    · rw [if_pos hsunday]
      by_cases hlast : date.day = daysInMonth date.year date.month
      · rw [if_pos hlast]
        omega
      · rw [if_neg hlast]
        omega
    · rw [if_neg hsunday]
      omega

/-- The working day that is found for a date is the one nearest to it. -/
theorem exists_isNearestWorkday (h : date.year < lastYear) :
    ∃ picked, SameMonth picked date ∧ date.nearestWorkday? = some picked.day ∧
      picked.IsNearestWorkday date.day := by
  have hlength := le_daysInMonth date.year date.month
  have hday := date.day_mem
  obtain ⟨target, htarget, hcases⟩ := nearestWorkday?_cases h
  obtain ⟨picked, hpicked, rfl⟩ := exists_sameMonth date
    (show 1 ≤ target by omega) (show target ≤ daysInMonth date.year date.month by omega)
  refine ⟨picked, hpicked, htarget, ?_, ?_, ?_⟩
  · rw [hpicked.daysInMonth_eq]
    exact hday
  · have hweek := hpicked.weekday_add_day
    have hlt := picked.weekday_lt
    unfold IsWorkday
    omega
  · intro other hother hwork hne
    have hmonth := hother.trans hpicked
    have hdays : other.day ≠ picked.day := fun heq => hne (hother.eq_of_day heq)
    have hweek := hmonth.weekday_add_day
    have hmem := other.day_mem
    rw [hmonth.daysInMonth_eq] at hmem
    unfold IsWorkday at hwork
    unfold Nat.dist
    omega

/-- Every day of a month has one nearest working day. -/
theorem existsUnique_isNearestWorkday (h : date.year < lastYear)
    (hday : 1 ≤ day ∧ day ≤ daysInMonth date.year date.month) :
    ∃! picked, SameMonth picked date ∧ picked.IsNearestWorkday day := by
  obtain ⟨near, hnear, rfl⟩ := exists_sameMonth date hday.1 hday.2
  have hyear : near.year < lastYear := by rwa [hnear.year]
  obtain ⟨picked, hpicked, -, hnearest⟩ := exists_isNearestWorkday hyear
  refine ⟨picked, ⟨hpicked.trans hnear, hnearest⟩, ?_⟩
  rintro other ⟨hother, hnearest'⟩
  exact hnearest'.unique hnearest (hother.trans (hpicked.trans hnear).symm)

end Date

namespace Pattern

open Date

variable {date : Date} {day : Nat}

/-- The working day found for a day of the month is a date when it is the one nearest to it. -/
theorem nearestWorkdayOf?_eq_some_iff (h : date.year < lastYear) :
    nearestWorkdayOf? date day = some date.day ↔ date.IsNearestWorkday day := by
  constructor
  · intro hfound
    obtain ⟨near, hnear, hpick⟩ := Option.bind_eq_some_iff.mp hfound
    obtain ⟨hyear, hmonth, rfl⟩ := ofYMD?_eq_some_iff.mp hnear
    have hsame : SameMonth near date := ⟨hyear, hmonth⟩
    obtain ⟨picked, hpicked, hday, hnearest⟩ :=
      exists_isNearestWorkday (show near.year < lastYear by rwa [hyear])
    rw [hpick, Option.some.injEq] at hday
    obtain rfl : picked = date := (hpicked.trans hsame).eq_of_day hday.symm
    exact hnearest
  · intro hnearest
    obtain ⟨near, hnear, rfl⟩ := exists_sameMonth date hnearest.inMonth.1 hnearest.inMonth.2
    obtain ⟨picked, hpicked, hday, hnearest'⟩ :=
      exists_isNearestWorkday (show near.year < lastYear by rwa [hnear.year])
    obtain rfl := hnearest'.unique hnearest (hpicked.trans hnear)
    have hfound : ofYMD? picked.year picked.month near.day = some near :=
      ofYMD?_eq_some_iff.mpr ⟨hnear.year, hnear.month, rfl⟩
    rw [nearestWorkdayOf?, hfound]
    exact hday

end Pattern
end CronSchedule
