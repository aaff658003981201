import CronSchedule.Mark.Table

/-! # Patterns

A `Pattern` is a parsed expression: the text and its tokens as written, for
explanations, and a table of marks for each field, for matching.  The two day fields
combine by a `DayRule`, which depends on which of them cover their whole domain.
-/
namespace CronSchedule

/-- How the day of month and the day of week combine. -/
inductive DayRule where
  /-- Both fields cover their domain. -/
  | any
  /-- Only the day of month is restricted. -/
  | dayOfMonth
  /-- Only the day of week is restricted. -/
  | dayOfWeek
  /-- Both are restricted and one of them has to match. -/
  | either
  /-- Both are restricted and both have to match. -/
  | both
  deriving DecidableEq

namespace DayRule

/-- The rule in words. -/
def name : DayRule → String
  | any => "every day"
  | dayOfMonth => "day of month only"
  | dayOfWeek => "day of week only"
  | either => "day of month or day of week"
  | both => "day of month and day of week"

/-- Whether a day matches, given whether each of its two fields does. -/
def holds : DayRule → Bool → Bool → Bool
  | any, _, _ => true
  | dayOfMonth, day, _ => day
  | dayOfWeek, _, weekday => weekday
  | either, day, weekday => day || weekday
  | both, day, weekday => day && weekday

end DayRule

/-- A parsed expression. -/
structure Pattern where
  /-- The expression without the blanks around it. -/
  text : String
  /-- The five or six fields as written. -/
  tokens : List String
  seconds : MarkTable
  minutes : MarkTable
  hours : MarkTable
  days : MarkTable
  months : MarkTable
  weekdays : MarkTable
  /-- Whether two restricted day fields both have to match. -/
  bothDays : Bool
  deriving DecidableEq

namespace Pattern

variable (pattern : Pattern)

/-- The table of a field. -/
def table : Field → MarkTable
  | .second => pattern.seconds
  | .minute => pattern.minutes
  | .hour => pattern.hours
  | .dayOfMonth => pattern.days
  | .month => pattern.months
  | .dayOfWeek => pattern.weekdays

/-- Whether the expression was written with a seconds field. -/
def hasSeconds : Bool := pattern.tokens.length == 6

/-- The tokens as written, each with its field. -/
def fieldTokens : List (Field × String) :=
  (if pattern.hasSeconds then Field.all else Field.withoutSeconds).zip pattern.tokens

/-- How the two day fields combine. -/
def dayRule : DayRule :=
  match pattern.days.isFull, pattern.weekdays.isFull with
  | true, true => .any
  | false, true => .dayOfMonth
  | true, false => .dayOfWeek
  | false, false => if pattern.bothDays then .both else .either

end Pattern

/-- A schedule: a pattern and how many years a search may look ahead. -/
structure Schedule where
  pattern : Pattern
  horizon : Nat
  deriving DecidableEq

namespace Schedule

/-- How the two day fields combine. -/
def dayRule (schedule : Schedule) : DayRule := schedule.pattern.dayRule

/-- The expression a schedule was parsed from, without the blanks around it. -/
def text (schedule : Schedule) : String := schedule.pattern.text

end Schedule
end CronSchedule
