import CronSchedule.Interchange.Basic
import CronSchedule.Schedule.Occurrences

/-! # Reports

A report on one expression: the phrases for its fields, how its day fields combine, and
the times it fires next.  It is printed as lines of text or as an interchange record.
-/
namespace CronSchedule

namespace Text

/-- Decimal digits with zeros in front up to a width. -/
def padded (width n : Nat) : String :=
  let digits := decimal n
  String.ofList (List.replicate (width - digits.length) '0' ++ digits)

end Text

namespace WallClock

open Text

/-- A year with at least four digits, and with its sign unless these suffice. -/
def yearText (year : Int) : String :=
  if year < 0 then "-" ++ padded 4 year.natAbs
  else if 9999 < year then "+" ++ padded 4 year.natAbs
  else padded 4 year.natAbs

/-- A wall clock as year, month and day, hour, minute and second. -/
def text (clock : WallClock) : String :=
  yearText clock.date.year ++ "-" ++ padded 2 clock.date.month ++ "-" ++
    padded 2 clock.date.day ++ " " ++ padded 2 clock.hour ++ ":" ++ padded 2 clock.minute ++
    ":" ++ padded 2 clock.second

end WallClock

/-- What is reported of an expression. -/
structure Report where
  expression : String
  explanation : Explanation
  dayRule : DayRule
  /-- The wall clocks at which the expression fires next. -/
  nextExecutions : List WallClock

namespace Report

variable (report : Report)

/-- The report as an interchange value. -/
def toValue : Value :=
  .record [
    ("expression", .text report.expression),
    ("explanation", report.explanation.toValue),
    ("dayRule", .text report.dayRule.name),
    ("nextExecutions", .sequence (report.nextExecutions.map fun clock => .text clock.text))]

/-- The lines that list the next executions. -/
def executionLines : List String :=
  if report.nextExecutions.isEmpty then []
  else
    ["", "Next executions:"] ++ report.nextExecutions.mapIdx fun i clock =>
      "#" ++ toString (i + 1) ++ ": " ++ clock.text

/-- The report as lines of text. -/
def render : String :=
  String.join <| ([report.explanation.render, "Days: " ++ report.dayRule.name] ++
    report.executionLines).map (· ++ "\n")

end Report
end CronSchedule
