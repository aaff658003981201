/-! # The six fields of a schedule

A schedule is written as five or six fields.  This module fixes their order, the
numbers each one takes, and the words used for it: `unit` inside phrases, `label`
as a heading, `key` in interchange records and `name` in messages.
-/
namespace CronSchedule

/-- One position of a cron expression. -/
inductive Field where
  | second
  | minute
  | hour
  | dayOfMonth
  | month
  | dayOfWeek
  deriving DecidableEq

namespace Field

/-- All six fields in the order they are written. -/
def all : List Field := [second, minute, hour, dayOfMonth, month, dayOfWeek]

/-- The fields of an expression written without seconds. -/
def withoutSeconds : List Field := [minute, hour, dayOfMonth, month, dayOfWeek]

/-- The smallest number the field takes. -/
def min : Field → Nat
  | dayOfMonth | month => 1
  | _ => 0

/-- The largest number the field takes.  Both 0 and 7 stand for Sunday. -/
def max : Field → Nat
  | second | minute => 59
  | hour => 23
  | dayOfMonth => 31
  | month => 12
  | dayOfWeek => 7

/-- The word for one step of the field. -/
def unit : Field → String
  | second => "second"
  | minute => "minute"
  | hour => "hour"
  | dayOfMonth => "day"
  | month => "month"
  | dayOfWeek => "weekday"

/-- The name of the field in interchange records. -/
def key : Field → String
  | second => "seconds"
  | minute => "minutes"
  | hour => "hours"
  | dayOfMonth => "dayOfMonth"
  | month => "month"
  | dayOfWeek => "dayOfWeek"

/-- The heading of the field in a printed explanation. -/
def label : Field → String
  | second => "Seconds"
  | minute => "Minutes"
  | hour => "Hours"
  | dayOfMonth => "Day of Month"
  | month => "Month"
  | dayOfWeek => "Day of Week"

/-- The name of the field inside messages. -/
def name : Field → String
  | second => "second"
  | minute => "minute"
  | hour => "hour"
  | dayOfMonth => "day of month"
  | month => "month"
  | dayOfWeek => "day of week"

/-- The characters a field may hold besides digits and `*`, `/`, `,`, `-`. -/
def extraCharacters : Field → List Char
  | dayOfMonth => ['L', 'W']
  | dayOfWeek => ['L', '#']
  | _ => []

/-- A field whose whole token may be a question mark, which reads as a star. -/
def takesQuestionMark : Field → Bool
  | dayOfMonth | dayOfWeek => true
  | _ => false

/-- The field with the given interchange name. -/
def ofKey? (key : String) : Option Field :=
  all.find? fun field => field.key == key

theorem min_le_max (field : Field) : field.min ≤ field.max := by
  cases field <;> decide

theorem max_le (field : Field) : field.max ≤ 59 := by
  cases field <;> decide

@[simp] theorem mem_all (field : Field) : field ∈ all := by
  cases field <;> decide

end Field
end CronSchedule
