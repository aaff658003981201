import CronSchedule.Proofs.Outcome

/-! # What a pattern asks about a date

A pattern answers for a date from the tables of its two day fields and from a few facts about
the date.  So two patterns with the same table of a day field answer alike for two dates of
which these facts are the same (`Date.AskedAlike`): the same pattern in two years, or two
patterns on the same day.
-/
namespace CronSchedule

/-- Whether two dates are alike in all that a pattern asks about them. -/
structure Date.AskedAlike (date other : Date) : Prop where
  month : date.month = other.month
  day : date.day = other.day
  weekday : date.weekday = other.weekday
  lastDayOfMonth : date.lastDayOfMonth? = other.lastDayOfMonth?
  isLastWeekday : date.isLastWeekday? = other.isLastWeekday?
  nearestWorkday : ∀ day, Pattern.nearestWorkdayOf? date day = Pattern.nearestWorkdayOf? other day

theorem Date.askedAlike_refl (date : Date) : date.AskedAlike date :=
  ⟨rfl, rfl, rfl, rfl, rfl, fun _ => rfl⟩

namespace Pattern

variable {a b : Pattern} {date other : Date}

theorem matchesNearest_congr (hdays : a.days = b.days) (h : date.AskedAlike other)
    (days : List Nat) : a.matchesNearest date days = b.matchesNearest other days := by
  induction days with
  | nil => rfl
  | cons day days ih =>
    rw [matchesNearest, matchesNearest, hdays, h.nearestWorkday, h.day, ih]

/-- The day of month is read from the table of the days. -/
theorem matchesDayOfMonth_congr (hdays : a.days = b.days) (h : date.AskedAlike other) :
    a.matchesDayOfMonth date = b.matchesDayOfMonth other := by
  have hlast : a.matchesLastDay date = b.matchesLastDay other := by
    rw [matchesLastDay, matchesLastDay, hdays, h.lastDayOfMonth, h.day]
  rw [matchesDayOfMonth, matchesDayOfMonth, hlast, matchesNearest_congr hdays h, hdays, h.day]

theorem matchesNth_congr (hweekdays : a.weekdays = b.weekdays) (weekday rank : Nat)
    (ks : List (Fin 5)) : a.matchesNth weekday rank ks = b.matchesNth weekday rank ks := by
  induction ks with
  | nil => rfl
  | cons k ks ih => rw [matchesNth, matchesNth, hweekdays, ih]

/-- The day of week is read from the table of the weekdays. -/
theorem matchesDayOfWeek_congr (hweekdays : a.weekdays = b.weekdays)
    (h : date.AskedAlike other) : a.matchesDayOfWeek date = b.matchesDayOfWeek other := by
  have hlast : isLastWeekday date = isLastWeekday other := by
    rw [isLastWeekday, isLastWeekday, h.isLastWeekday]
  have hrank : date.weekdayRank = other.weekdayRank := by
    rw [Date.weekdayRank, Date.weekdayRank, h.day]
  simp only [matchesDayOfWeek]
  rw [hweekdays, h.weekday, hrank, hlast, matchesNth_congr hweekdays]

/-- Both day fields are asked, and the rule combines the answers. -/
theorem matchesDate_congr (hdays : a.days = b.days) (hweekdays : a.weekdays = b.weekdays)
    (hrule : a.dayRule = b.dayRule) (h : date.AskedAlike other) :
    a.matchesDate date = b.matchesDate other := by
  rw [matchesDate, matchesDate, matchesDayOfMonth_congr hdays h,
    matchesDayOfWeek_congr hweekdays h, hrule]

end Pattern
end CronSchedule
