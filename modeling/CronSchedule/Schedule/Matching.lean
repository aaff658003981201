import CronSchedule.Calendar.WallClock
import CronSchedule.Calendar.Weekday
import CronSchedule.Schedule.Pattern

/-! # Matching a wall clock

Whether the parts of a wall clock carry the marks that a pattern asks for.  A question may
fail, and a second one is asked only where the first leaves the answer open.  A day is
looked up in both day fields before the day rule combines the two answers, so a failure in
either of them shows whatever the rule.
-/
namespace CronSchedule

namespace MarkTable

/-- Whether a value carries a mark, with a fault turned into an error of the field. -/
@[inline] def has (table : MarkTable) (value : Nat) (mark : Mark) : Except Error Bool :=
  (table.isSet value mark.bits).mapError (.invalidField table.field)

/-- The smallest plain value from `start` on, with a fault turned into an error of the
field. -/
def nextPlain (table : MarkTable) (start : Nat) : Except Error (Option Nat) :=
  (table.next start).mapError (.invalidField table.field)

/-- Whether a value of a part of the time of day, the largest of which is given, matches
plainly. -/
def hasUpTo (table : MarkTable) (largest value : Nat) : Except Error Bool :=
  if largest < value then .error .invalidTime else table.has value .plain

/-- The smallest plain value of a part of the time of day from `start` on. -/
def nextUpTo (table : MarkTable) (largest start : Nat) : Except Error (Option Nat) :=
  if largest < start then .error .invalidTime else table.nextPlain start

end MarkTable

namespace Pattern

variable (pattern : Pattern)

/-- Whether a date is the last day of its month and the pattern asks for that day. -/
def matchesLastDay (date : Date) : Except Error Bool :=
  if pattern.days.isEnabled Mark.last.bits then
    match date.lastDayOfMonth? with
    | some last => .ok (date.day == last)
    | none => .error .invalidDate
  else .ok false

/-- The working day nearest to a day of the month of a date. -/
def nearestWorkdayOf? (date : Date) (day : Nat) : Option Nat :=
  (Date.ofYMD? date.year date.month day).bind Date.nearestWorkday?

/-- Whether the working day nearest to one of the given days of the month, where the
pattern asks for it, is the date. -/
def matchesNearest (pattern : Pattern) (date : Date) : List Nat → Except Error Bool
  | [] => .ok false
  | day :: days =>
    (pattern.days.has day .nearestWeekday <&&>
        .ok (nearestWorkdayOf? date day == some date.day)) <||>
      pattern.matchesNearest date days

/-- The days of a month whose nearest working day can be the given one. -/
def nearDays (day : Nat) : List Nat :=
  let first := Nat.max (day - 2) 1
  List.range' first (Nat.min (day + 2) 31 + 1 - first)

/-- Whether a date matches the day of month. -/
def matchesDayOfMonth (date : Date) : Except Error Bool :=
  pattern.days.has date.day .plain <||> pattern.matchesLastDay date <||>
    pattern.matchesNearest date (nearDays date.day)

/-- Whether a weekday carries the mark for the time it occurs in its month, with so many
of the same weekday before it. -/
def matchesNth (pattern : Pattern) (weekday rank : Nat) : List (Fin 5) → Except Error Bool
  | [] => .ok false
  | k :: ks =>
    (pattern.weekdays.has weekday (.nth k) <&&> .ok (rank == k)) <||>
      pattern.matchesNth weekday rank ks

/-- Whether the weekday of a date does not occur again in its month. -/
def isLastWeekday (date : Date) : Except Error Bool :=
  match date.isLastWeekday? with
  | some last => .ok last
  | none => .error .calendarOverflow

/-- Whether a date matches the day of week. -/
def matchesDayOfWeek (date : Date) : Except Error Bool :=
  let weekday := date.weekday
  pattern.weekdays.has weekday .plain <||>
    pattern.matchesNth weekday date.weekdayRank [0, 1, 2, 3, 4] <||>
      (pattern.weekdays.has weekday .last <&&> isLastWeekday date)

/-- Whether a date matches the two day fields together. -/
def matchesDate (date : Date) : Except Error Bool := do
  let day ← pattern.matchesDayOfMonth date
  let weekday ← pattern.matchesDayOfWeek date
  return pattern.dayRule.holds day weekday

/-- Whether a year, month and day are a date that matches. -/
def matchesDay (year : Int) (month day : Nat) : Except Error Bool :=
  match Date.ofYMD? year month day with
  | some date => pattern.matchesDate date
  | none => .error .invalidDate

/-- Whether a month matches. -/
def matchesMonth (month : Nat) : Except Error Bool :=
  if month = 0 ∨ 12 < month then .error .invalidDate else pattern.months.has month .plain

/-- Whether an hour matches. -/
def matchesHour (hour : Nat) : Except Error Bool := pattern.hours.hasUpTo 23 hour

/-- Whether a minute matches. -/
def matchesMinute (minute : Nat) : Except Error Bool := pattern.minutes.hasUpTo 59 minute

/-- Whether a second matches. -/
def matchesSecond (second : Nat) : Except Error Bool := pattern.seconds.hasUpTo 59 second

/-- The first matching hour at or after an hour, within the day. -/
def nextHour (hour : Nat) : Except Error (Option Nat) := pattern.hours.nextUpTo 23 hour

/-- The first matching minute at or after a minute, within the hour. -/
def nextMinute (minute : Nat) : Except Error (Option Nat) := pattern.minutes.nextUpTo 59 minute

/-- The first matching second at or after a second, within the minute. -/
def nextSecond (second : Nat) : Except Error (Option Nat) := pattern.seconds.nextUpTo 59 second

/-- Whether a wall clock matches every field.  The smaller fields are asked first, and the
first that does not match is the answer. -/
def matchesClock (clock : WallClock) : Except Error Bool :=
  pattern.matchesSecond clock.second <&&> pattern.matchesMinute clock.minute <&&>
    pattern.matchesHour clock.hour <&&> pattern.matchesDate clock.date <&&>
      pattern.matchesMonth clock.date.month

end Pattern
end CronSchedule
