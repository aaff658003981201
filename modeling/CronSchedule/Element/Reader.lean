import CronSchedule.Element.Basic
import CronSchedule.Error
import CronSchedule.Text.Numeral

/-! # Reading an element

The text of one list element, in capitals and without names, is read as an `Element`
or refused with a `Fault`.  Whether the values lie in the field is left to the table
they are entered into, except for the bounds of a range.
-/
namespace CronSchedule.Element

open Text

/-- A number of at most 255. -/
def readNumber (text : List Char) : Except Fault Nat :=
  match numeralUpTo? byteLimit text with
  | some n => .ok n
  | none => .error (.notANumber (String.ofList text))

/-- The two ends of a range, which ascends within the field. -/
def readBounds (field : Field) (first last : List Char) : Except Fault (Nat × Nat) := do
  let first ← readNumber first
  let last ← readNumber last
  if last < first then throw (.descendingRange first last)
  else if first < field.min ∨ field.max < last then throw (.rangeOutOfRange first last)
  else return (first, last)

/-- Takes `#k`, `#L` or, for a weekday, a final `L` off a text. -/
def readMark (field : Field) (text : List Char) : Except Fault (List Char × Mark) :=
  match cutAt? '#' text with
  | some (base, count) =>
    if count = ['L'] then .ok (base, .last)
    else do
      let n ← readNumber count
      if h : 1 ≤ n ∧ n ≤ 5 then return (base, .nth ⟨n - 1, by omega⟩)
      else throw (.nthOutOfRange n)
  | none =>
    match ['L'].isSuffixOf? text with
    -- outside the weekdays the letter stays and is refused with the number
    | some base => .ok (if field = .dayOfWeek then (base, .last) else (text, .plain))
    | none => .ok (text, .plain)

/-- A value or a range, with the mark written after it. -/
def readMarked (field : Field) (text : List Char) : Except Fault Element := do
  let (base, mark) ← readMark field text
  match cutAt? '-' base with
  | some (first, last) =>
    let (first, last) ← readBounds field first last
    return .range first last mark
  | none => return .single (← readNumber base) mark

/-- What a step walks over.  A lone value is not held against the end of the field. -/
def readSpan (field : Field) (text : List Char) : Except Fault Span :=
  if text = ['*'] then .ok .whole
  else
    match cutAt? '-' text with
    | some (first, last) => do
      let (first, last) ← readBounds field first last
      return .between first last
    | none => return .upFrom (← readNumber text)

/-- A span and a step, the step being looked at first. -/
def readStepped (field : Field) (span step : List Char) : Except Fault Element := do
  let step ← readNumber step
  if step = 0 then throw .zeroStep else return .stepped (← readSpan field span) step

/-- One element of a comma list. -/
def read (field : Field) (text : List Char) : Except Fault Element :=
  if text = [] then .error .emptyElement
  else
    match cutAt? '/' text with
    | some (span, step) => readStepped field span step
    | none =>
      if '-' ∈ text then readMarked field text
      else if field = .dayOfMonth ∧ text = ['L'] then .ok .lastDay
      else
        match ['W'].isSuffixOf? text with
        | some day => return .nearestWeekday (← readNumber day)
        | none => readMarked field text

end CronSchedule.Element
