import CronSchedule.Mark.Basic
import CronSchedule.SecondsMode

/-! # Errors

A `Fault` is what is wrong with one field; an `Error` is why an expression is refused
or a search fails.  The wording is in `Fault.message` and `Error.message`.
-/
namespace CronSchedule

/-- What is wrong with the text or a value of one field. -/
inductive Fault where
  /-- A comma list has an element without text. -/
  | emptyElement
  /-- A place for a number holds something else. -/
  | notANumber (text : String)
  /-- A value lies outside the field. -/
  | valueOutOfRange (value : Nat)
  /-- A value cannot carry these marks. -/
  | unsupportedMarks (marks : Marks)
  /-- The field has no feature of this kind as a whole. -/
  | unsupportedFeature
  /-- The number after `#` is none of 1 to 5. -/
  | nthOutOfRange (n : Nat)
  /-- A range ends before it starts. -/
  | descendingRange (first last : Nat)
  /-- A range leaves the field. -/
  | rangeOutOfRange (first last : Nat)
  /-- A step of zero. -/
  | zeroStep
  deriving DecidableEq

namespace Fault

/-- The wording of a fault in a field. -/
def message (field : Field) : Fault → String
  | emptyElement => "empty list element"
  | notANumber text => s!"'{text}' is not a number"
  | valueOutOfRange value => s!"value {value} is out of range ({field.min}-{field.max})"
  | unsupportedMarks marks => s!"modifier 0b{marks.binary} is not supported here"
  | unsupportedFeature => "'L' is not supported here"
  | nthOutOfRange n => s!"nth specifier #{n} must be between 1 and 5"
  | descendingRange first last => s!"range {first}-{last} is descending"
  | rangeOutOfRange first last =>
    s!"range {first}-{last} is out of range ({field.min}-{field.max})"
  | zeroStep => "step cannot be zero"

end Fault

/-- Why an expression is refused or a search fails. -/
inductive Error where
  /-- The expression holds nothing but blanks. -/
  | emptyExpression
  /-- The expression has a number of fields the mode does not take. -/
  | fieldCount (found : Nat) (mode : SecondsMode)
  /-- A normalized field holds a character that is never legal in its place. -/
  | illegalCharacter (field : Field) (token : String) (c : Char)
  /-- A field cannot be read. -/
  | invalidField (field : Field) (fault : Fault)
  /-- The search met a date that does not exist. -/
  | invalidDate
  /-- The search met a time that does not exist. -/
  | invalidTime
  /-- No time matches within the horizon. -/
  | exhausted (years : Nat)
  /-- The answer needs a date past the end of the calendar. -/
  | calendarOverflow
  deriving DecidableEq

namespace Error

/-- Whether the expression itself is at fault, rather than a search. -/
def isMalformed : Error → Bool
  | emptyExpression | fieldCount .. | illegalCharacter .. | invalidField .. => true
  | invalidDate | invalidTime | exhausted _ | calendarOverflow => false

/-- The wording of an error. -/
def message : Error → String
  | emptyExpression => "cron expression cannot be an empty string"
  | fieldCount found mode =>
    s!"cron expression must have {mode.expected} fields, found {found}"
  | illegalCharacter field token c =>
    s!"illegal character '{c}' in {field.name} field '{token}'"
  | invalidField field fault => s!"invalid {field.name} field: {fault.message field}"
  | invalidDate => "encountered an invalid date while searching for an occurrence"
  | invalidTime => "encountered an invalid time while searching for an occurrence"
  | exhausted years => s!"no matching time found within {years} years"
  | calendarOverflow => "the calendar ends before the dates this answer needs"

end Error
end CronSchedule
