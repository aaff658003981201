import CronSchedule.Explanation.Basic
import CronSchedule.Interchange.Value

/-! # Schedules and explanations as interchange values

A schedule is exchanged as the text of its expression and read back under the default
options.  An explanation is exchanged as a record with one entry a field; a sequence of the
six phrases, in the order of the fields, is read as well.
-/
namespace CronSchedule

/-- Why a value is no schedule. -/
inductive InterchangeError where
  /-- The text is no expression. -/
  | invalidExpression (error : Error)
  /-- The value is no text. -/
  | notAText (value : Value)

namespace InterchangeError

/-- The wording of an error. -/
def message : InterchangeError → String
  | invalidExpression error => error.message
  | notAText value => s!"invalid type: {value.describe}, expected a valid cron expression"

end InterchangeError

namespace Schedule

/-- The value of a schedule. -/
def toValue (schedule : Schedule) : Value := .text schedule.text

/-- The schedule of a value. -/
def ofValue : Value → Except InterchangeError Schedule
  | .text expression => (parse expression).mapError .invalidExpression
  | value => .error (.notAText value)

end Schedule

namespace Explanation

/-- The value of an explanation. -/
def toValue (explanation : Explanation) : Value :=
  .record (explanation.phrases.map fun line => (line.1.key, .text line.2))

/-- The phrase for a field in a record. -/
def phraseIn? (entries : List (String × Value)) (field : Field) : Option String :=
  match Value.lookup? field.key entries with
  | some (.text phrase) => some phrase
  | _ => none

/-- The phrase for the seconds, which may be left out. -/
def secondsOf? : Value → Option (Option String)
  | .null => some none
  | .text phrase => some (some phrase)
  | _ => none

/-- The explanation of a value.  Entries of other names are passed over. -/
def ofValue? : Value → Option Explanation
  | .record entries => do
    return {
      seconds := ← secondsOf? ((Value.lookup? Field.second.key entries).getD .null)
      minutes := ← phraseIn? entries .minute
      hours := ← phraseIn? entries .hour
      dayOfMonth := ← phraseIn? entries .dayOfMonth
      month := ← phraseIn? entries .month
      dayOfWeek := ← phraseIn? entries .dayOfWeek }
  | .sequence [seconds, .text minutes, .text hours, .text dayOfMonth, .text month,
      .text dayOfWeek] => do
    return { seconds := ← secondsOf? seconds, minutes, hours, dayOfMonth, month, dayOfWeek }
  | _ => none

end Explanation
end CronSchedule
