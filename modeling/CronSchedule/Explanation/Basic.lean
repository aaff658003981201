import CronSchedule.Explanation.Language
import CronSchedule.Explanation.Shape
import CronSchedule.Field.Alias
import CronSchedule.Schedule.Parsing

/-! # Explanations

Every field is explained on its own, the way it is written.  Numbers and names of months
and weekdays are spelled out, also inside lists; a value without a name is shown as it
stands.
-/
namespace CronSchedule

open Text

namespace Language

variable (lang : Language)

/-- The name of a month or weekday number. -/
def nameOf? : Field → Nat → Option String
  | .month, n => if n = 0 then none else lang.monthNames[n - 1]?
  | .dayOfWeek, n => lang.weekdayNames[n]?
  | _, _ => none

/-- The number a text stands for in a field: a numeral, or the name of a month or
weekday. -/
def numberOf? (field : Field) (text : List Char) : Option Nat :=
  (numeralUpTo? wordLimit text).or (field.aliasValue? text)

/-- A value by its name, or as written where it has none. -/
def value (field : Field) (text : List Char) : String :=
  ((numberOf? field text).bind (lang.nameOf? field)).getD (String.ofList text)

/-- An element of a list, with its values named and its shape kept. -/
def listElement (field : Field) (element : List Char) : String :=
  let named (range : List Char) : String :=
    match cutAt? '-' range with
    | some (first, last) => lang.listRange (lang.value field first) (lang.value field last)
    | none => lang.value field range
  match cutAt? '/' element with
  | some (range, step) => named range ++ "/" ++ String.ofList step
  | none => named element

/-- A phrase with its step, where the step is more than one. -/
def stepped (field : Field) (phrase : String) : Option Nat → String
  | some step => if 1 < step then lang.withStep phrase step (lang.unit field) else phrase
  | none => phrase

/-- The phrase for a field of the given shape. -/
def phraseOf (field : Field) : Shape → String
  | .wildcard => lang.everyUnit (lang.unit field)
  | .step n => lang.everyUnits n (lang.unit field)
  | .range first last step =>
    lang.stepped field (lang.fromTo (lang.value field first) (lang.value field last)) step
  | .upFrom first step => lang.stepped field (lang.upFrom (lang.value field first)) (some step)
  | .list elements =>
    lang.atPhrase (lang.listSeparator.intercalate (elements.map (lang.listElement field)))
  | .value text => lang.atPhrase (lang.value field text)

/-- The phrase for a field as written. -/
def explainToken (field : Field) (token : String) : String :=
  lang.phraseOf field (Shape.ofToken token.toList)

end Language

/-- The phrases for the fields of an expression.  Seconds have one only when they were
written. -/
structure Explanation where
  seconds : Option String := none
  minutes : String := ""
  hours : String := ""
  dayOfMonth : String := ""
  month : String := ""
  dayOfWeek : String := ""
  deriving DecidableEq

namespace Explanation

variable (explanation : Explanation)

/-- The phrase for a field. -/
def get? : Field → Option String
  | .second => explanation.seconds
  | .minute => some explanation.minutes
  | .hour => some explanation.hours
  | .dayOfMonth => some explanation.dayOfMonth
  | .month => some explanation.month
  | .dayOfWeek => some explanation.dayOfWeek

/-- The explanation with the phrase for one field replaced. -/
def put (phrase : String) : Field → Explanation
  | .second => { explanation with seconds := some phrase }
  | .minute => { explanation with minutes := phrase }
  | .hour => { explanation with hours := phrase }
  | .dayOfMonth => { explanation with dayOfMonth := phrase }
  | .month => { explanation with month := phrase }
  | .dayOfWeek => { explanation with dayOfWeek := phrase }

/-- The phrases there are, in the order of the fields. -/
def phrases : List (Field × String) :=
  Field.all.filterMap fun field => (explanation.get? field).map (field, ·)

/-- The phrases as lines, each after the heading of its field. -/
def render : String :=
  "\n".intercalate (explanation.phrases.map fun line => line.1.label ++ ": " ++ line.2)

end Explanation

/-- The explanation of a pattern in a language. -/
def Pattern.explain (pattern : Pattern) (lang : Language) : Explanation :=
  pattern.fieldTokens.foldl
    (fun explanation line => explanation.put (lang.explainToken line.1 line.2) line.1) {}

/-- The explanation of a schedule in English. -/
def Schedule.explain (schedule : Schedule) : Explanation := schedule.pattern.explain .english

/-- The explanation of an expression in English, under the default options. -/
def Explanation.ofExpression (expression : String) : Except Error Explanation :=
  (Schedule.parse expression).map Schedule.explain

end CronSchedule
