import CronSchedule.Proofs.Calendar.YearShape
import CronSchedule.Schedule.Matching
import Mathlib.Data.Set.Card

/-! # The days of a month

What the questions about a date within its month mean on the calendar, where the other dates
of the month are looked at one by one.  Two dates of a month fall on the same weekday when
whole weeks lie between them (`SameMonth.weekday_eq_iff`), so counting weeks counts the
earlier dates with that weekday (`ncard_earlier_eq`), and looking one week ahead is enough to
see whether a later one exists (`isLastWeekday?_eq_some_true_iff`).

A working day is at most two days from the day it is nearest to (`mem_nearDays_of_nearest`).
-/
namespace CronSchedule

namespace Date

variable {a b date : Date}

/-- Whether two dates lie in the same month. -/
structure SameMonth (a b : Date) : Prop where
  year : a.year = b.year
  month : a.month = b.month

namespace SameMonth

theorem daysInMonth_eq (h : SameMonth a b) :
    daysInMonth a.year a.month = daysInMonth b.year b.month := by
  rw [h.year, h.month]

theorem eq_of_day (h : SameMonth a b) (hday : a.day = b.day) : a = b := by
  refine dayNumber_inj ?_
  rw [dayNumber_eq, dayNumber_eq, monthStart, monthStart, h.year, h.month, hday]

/-- The weekday comes back every seven days of a month and not between them. -/
theorem weekday_eq_iff (h : SameMonth a b) : a.weekday = b.weekday ↔ a.day % 7 = b.day % 7 := by
  have hstart : a.monthStart = b.monthStart := by
    rw [monthStart, monthStart, h.year, h.month]
  rw [weekday, weekday, dayNumber_eq, dayNumber_eq, hstart]
  omega

end SameMonth

/-- Every day that a month has is a date in it. -/
theorem exists_sameMonth (date : Date) {day : Nat} (hfirst : 1 ≤ day)
    (hlast : day ≤ daysInMonth date.year date.month) :
    ∃ other : Date, SameMonth other date ∧ other.day = day :=
  ⟨⟨date.year, date.month, day, date.year_mem, date.month_mem, hfirst, hlast⟩, ⟨rfl, rfl⟩, rfl⟩

/-! ## The first and the last of their kind -/

/-- The last day of a month is the one that no other day of the month comes after. -/
theorem day_eq_daysInMonth_iff : date.day = daysInMonth date.year date.month ↔
    ∀ other, SameMonth other date → other.day ≤ date.day := by
  constructor
  · intro hlast other hmonth
    rw [hlast, ← hmonth.daysInMonth_eq]
    exact other.day_mem.2
  · intro hlast
    obtain ⟨hfirst, hle⟩ := date.day_mem
    obtain ⟨final, hmonth, hend⟩ := exists_sameMonth date (Nat.le_trans hfirst hle) (Nat.le_refl _)
    have := hlast final hmonth
    omega

/-- The dates of the month before a date that fall on its weekday. -/
def earlier (date : Date) : Set Date :=
  { other | SameMonth other date ∧ other.day < date.day ∧ other.weekday = date.weekday }

/-- Two dates of a month with the same weekday and the same rank are one. -/
theorem SameMonth.eq_of_weekdayRank (h : SameMonth a b) (hweekday : a.weekday = b.weekday)
    (hrank : a.weekdayRank = b.weekdayRank) : a = b := by
  have hmod := h.weekday_eq_iff.mp hweekday
  have ha := a.day_mem
  have hb := b.day_mem
  rw [weekdayRank, weekdayRank] at hrank
  exact h.eq_of_day (by omega)

/-- The earlier dates on the weekday have the ranks below that of the date. -/
theorem image_weekdayRank_earlier (date : Date) :
    weekdayRank '' date.earlier = (Finset.range date.weekdayRank : Set Nat) := by
  have hday := date.day_mem
  ext rank
  simp only [Set.mem_image, Finset.coe_range, Set.mem_Iio, weekdayRank]
  constructor
  · rintro ⟨other, ⟨hmonth, hlt, hweekday⟩, rfl⟩
    have hmod := hmonth.weekday_eq_iff.mp hweekday
    have hother := other.day_mem
    omega
  · intro hrank
    -- so many weeks back from the date
    obtain ⟨other, hmonth, hother⟩ := exists_sameMonth date
      (show 1 ≤ date.day - 7 * ((date.day - 1) / 7 - rank) by omega) (by omega)
    refine ⟨other, ⟨hmonth, by omega, hmonth.weekday_eq_iff.mpr (by omega)⟩, ?_⟩
    omega

/-- The rank of a date counts the earlier dates of its month on the same weekday. -/
theorem ncard_earlier_eq (date : Date) : date.earlier.ncard = date.weekdayRank := by
  have hinj : Set.InjOn weekdayRank date.earlier := by
    rintro a ⟨ha, -, haweekday⟩ b ⟨hb, -, hbweekday⟩ hrank
    have hmonth : SameMonth a b := ⟨ha.year.trans hb.year.symm, ha.month.trans hb.month.symm⟩
    exact hmonth.eq_of_weekdayRank (haweekday.trans hbweekday.symm) hrank
  rw [← hinj.ncard_image, image_weekdayRank_earlier, Set.ncard_coe_finset, Finset.card_range]

/-- A weekday comes again in the month when it does so a week later. -/
theorem add_week_le_iff : date.day + 7 ≤ daysInMonth date.year date.month ↔
    ∃ later, SameMonth later date ∧ date.day < later.day ∧ later.weekday = date.weekday := by
  have hday := date.day_mem
  constructor
  · intro hle
    obtain ⟨later, hmonth, hlater⟩ := exists_sameMonth date (by omega) hle
    exact ⟨later, hmonth, by omega, hmonth.weekday_eq_iff.mpr (by omega)⟩
  · rintro ⟨later, hmonth, hlt, hweekday⟩
    have hmod := hmonth.weekday_eq_iff.mp hweekday
    have hlater := later.day_mem
    rw [hmonth.daysInMonth_eq] at hlater
    omega

/-- Before the last year of the calendar it is known of every date whether its weekday comes
again in the month. -/
theorem isLastWeekday?_eq (h : date.year < lastYear) :
    date.isLastWeekday? = some (decide (daysInMonth date.year date.month < date.day + 7)) := by
  obtain ⟨next, hnext⟩ := exists_nextMonth h
  rw [isLastWeekday?, hnext]
  split
  · rename_i hle
    rw [decide_eq_false (Nat.not_lt.mpr hle)]
  · rename_i hgt
    rw [decide_eq_true (Nat.not_le.mp hgt)]
    rfl

theorem isLastWeekday?_eq_some_true_iff (h : date.year < lastYear) :
    date.isLastWeekday? = some true ↔
      ∀ later, SameMonth later date → date.day < later.day → later.weekday ≠ date.weekday := by
  rw [isLastWeekday?_eq h, Option.some.injEq, decide_eq_true_iff, ← Nat.not_le, add_week_le_iff]
  constructor
  · intro hnone later hmonth hlt hweekday
    exact hnone ⟨later, hmonth, hlt, hweekday⟩
  · rintro hnone ⟨later, hmonth, hlt, hweekday⟩
    exact hnone later hmonth hlt hweekday

/-! ## Working days -/

theorem nearestWorkday?_near {day : Nat} (h : date.nearestWorkday? = some day) :
    day ≤ date.day + 2 ∧ date.day ≤ day + 2 := by
  obtain ⟨last, -, h⟩ := Option.map_eq_some_iff.mp h
  split at h
  · split at h
    · omega
    · omega
  · split at h
    · split at h
      · omega
      · omega
    · omega

end Date

namespace Pattern

/-- The days whose nearest working day is the given one are all among those looked at. -/
theorem mem_nearDays_of_nearest {date : Date} {near day : Nat}
    (h : nearestWorkdayOf? date near = some day) (hmax : near ≤ 31) : near ∈ nearDays day := by
  obtain ⟨other, hother, hnearest⟩ := Option.bind_eq_some_iff.mp h
  obtain ⟨-, -, rfl⟩ := Date.ofYMD?_eq_some_iff.mp hother
  obtain ⟨hle, hge⟩ := Date.nearestWorkday?_near hnearest
  have hfirst := other.day_mem.1
  simp only [nearDays, List.mem_range'_1]
  have hlo : Nat.max (day - 2) 1 ≤ other.day := Nat.max_le.mpr ⟨by omega, hfirst⟩
  have hhi : other.day ≤ Nat.min (day + 2) 31 := Nat.le_min.mpr ⟨hge, hmax⟩
  omega

end Pattern
end CronSchedule
