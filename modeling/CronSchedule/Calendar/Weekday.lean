import CronSchedule.Calendar.Date

/-! # Weekdays of a month

Questions about the weekday of a date within its month: which time it occurs, whether it
occurs again, and which working day is nearest to a date.
-/
namespace CronSchedule.Date

variable (date : Date)

/-- How many times the weekday has occurred in the month before the date. -/
def weekdayRank : Nat := (date.day - 1) / 7

/-- Whether the weekday does not occur again in the month.  The date a week later has to be
one of the calendar; past the end of the month it is one of the next month. -/
def isLastWeekday? : Option Bool :=
  if date.day + 7 ≤ daysInMonth date.year date.month then some false
  else date.nextMonth?.map fun _ => true

/-- The day from Monday to Friday nearest to the date within its month: a Saturday moves
back and a Sunday forward, unless that leaves the month. -/
def nearestWorkday? : Option Nat :=
  date.lastDayOfMonth?.map fun last =>
    if date.weekday = 6 then if date.day = 1 then date.day + 2 else date.day - 1
    else if date.weekday = 0 then if date.day = last then date.day - 2 else date.day + 1
    else date.day

end CronSchedule.Date
