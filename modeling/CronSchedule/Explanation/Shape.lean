import CronSchedule.Text.Cut
import CronSchedule.Text.Numeral

/-! # The shape of a written field

An explanation follows the text of a field as it was written, without reading the field
again as a table.  `Shape.ofToken` says which kind of text it is and cuts it into the
parts that are named or counted.
-/
namespace CronSchedule

open Text

/-- The shape of one field as written. -/
inductive Shape where
  /-- The whole field, stepped by nothing or by one. -/
  | wildcard
  /-- The whole field with a step. -/
  | step (n : Nat)
  /-- From one value to another. -/
  | range (first last : List Char) (step : Option Nat)
  /-- From one value on, with a step. -/
  | upFrom (first : List Char) (step : Nat)
  /-- Elements between commas. -/
  | list (elements : List (List Char))
  /-- Anything else. -/
  | value (text : List Char)
  deriving DecidableEq

namespace Shape

/-- The shape of a text without commas and the step that followed it. -/
def ofSpan (text : List Char) (count : Option Nat) : Shape :=
  match cutAt? '-' text with
  | some (first, last) => .range first last count
  | none =>
    match count with
    | some n => .upFrom text n
    | none => .value text

/-- The shape of a text without commas that does not start with a stepped star. -/
def ofElement (token : List Char) : Shape :=
  match cutAt? '/' token with
  | none => ofSpan token none
  | some (base, count) =>
    match numeralUpTo? byteLimit count with
    | some n => ofSpan base (some n)
    | none => .value token

/-- The shape of a field as written.  A stepped star is looked for before commas are. -/
def ofToken (token : List Char) : Shape :=
  if token = ['*'] ∨ token = ['?'] then .wildcard
  else
    match ['*', '/'].isPrefixOf? token with
    | some count =>
      match numeralUpTo? byteLimit count with
      | some n => if n = 1 then .wildcard else .step n
      | none => .value token
    | none => if ',' ∈ token then .list (token.splitOn ',') else ofElement token

end Shape
end CronSchedule
