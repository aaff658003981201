import CronSchedule.Field.Alias
import CronSchedule.Mark.Entry
import CronSchedule.Schedule.Pattern
import CronSchedule.Text.Blank

/-! # Parsing an expression

An expression is cut into words, each word is read as a field from left to right, and the
weekday 7 is moved to 0 at the end.  The first fault found is the answer.  `ParseOptions`
say whether seconds are taken, how two restricted day fields combine, and how far a search
looks ahead.
-/
namespace CronSchedule

open Text

/-- How many years a search looks ahead unless told otherwise. -/
def defaultHorizon : Nat := 28

/-- The options under which an expression is parsed. -/
structure ParseOptions where
  /-- Whether a seconds field is taken. -/
  seconds : SecondsMode := .optional
  /-- Whether two restricted day fields both have to match. -/
  bothDays : Bool := false
  /-- How many years a search looks ahead. -/
  horizon : Nat := defaultHorizon
  deriving DecidableEq

/-- The table of one field as written. -/
def MarkTable.parse (field : Field) (token : List Char) : Except Error MarkTable :=
  let token := field.normalize token
  match token.find? fun c => !field.allows c with
  | some c => .error (.illegalCharacter field (String.ofList token) c)
  | none => (ofToken field token).mapError (.invalidField field)

/-- The table of the seconds when they are not written: second zero. -/
def MarkTable.defaultSeconds : Except Fault MarkTable := (empty .second).set 0 Mark.plain.bits

namespace Pattern

/-- The pattern of the five fields after the seconds. -/
def assemble (bothDays : Bool) (text : List Char) (tokens : List (List Char))
    (seconds : MarkTable) (minute hour day month weekday : List Char) :
    Except Error Pattern := do
  let minutes ← MarkTable.parse .minute minute
  let hours ← MarkTable.parse .hour hour
  let days ← MarkTable.parse .dayOfMonth day
  let months ← MarkTable.parse .month month
  let weekdays ← MarkTable.parse .dayOfWeek weekday
  let weekdays ← weekdays.foldSunday.mapError (.invalidField .dayOfWeek)
  return {
    text := String.ofList text
    tokens := tokens.map String.ofList
    seconds, minutes, hours, days, months, weekdays
    bothDays }

/-- The pattern of a text with the given words. -/
def ofWords (options : ParseOptions) (text : List Char) (tokens : List (List Char)) :
    Except Error Pattern :=
  if options.seconds.accepts tokens.length then do
    let unwritten ← MarkTable.defaultSeconds.mapError (.invalidField .second)
    match tokens with
    | [minute, hour, day, month, weekday] =>
      assemble options.bothDays text tokens unwritten minute hour day month weekday
    | [second, minute, hour, day, month, weekday] =>
      let seconds ← MarkTable.parse .second second
      assemble options.bothDays text tokens seconds minute hour day month weekday
    | _ => .error (.fieldCount tokens.length options.seconds)
  else .error (.fieldCount tokens.length options.seconds)

/-- The pattern of an expression. -/
def parse (options : ParseOptions) (expression : String) : Except Error Pattern :=
  let text := trim expression.toList
  if text = [] then .error .emptyExpression else ofWords options text (words text)

end Pattern

namespace Schedule

/-- The schedule an expression describes. -/
def parseWith (options : ParseOptions) (expression : String) : Except Error Schedule :=
  (Pattern.parse options expression).map (⟨·, options.horizon⟩)

/-- The schedule an expression describes under the default options. -/
def parse (expression : String) : Except Error Schedule := parseWith {} expression

/-- Whether an expression describes a schedule under the default options. -/
def isValid (expression : String) : Bool := (parse expression).toBool

end Schedule
end CronSchedule
