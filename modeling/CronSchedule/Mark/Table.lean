import CronSchedule.Error

/-! # Mark tables

What one field of a schedule means: the marks of each of its values, and the marks
that hold for the field as a whole (the last day of the month).  Marks are set, removed
and asked for through checked operations, which refuse a value outside the field before
they refuse marks the field does not support.  `MarkTable.marksOf` is the view through
which a table is read.
-/
namespace CronSchedule

/-- The marks of every value of a field. -/
structure MarkTable where
  field : Field
  /-- The marks of the values 0, 1, … up to the largest of the field. -/
  entries : Array Marks
  /-- The marks that hold for the field as a whole. -/
  features : Marks
  deriving DecidableEq

namespace MarkTable

/-- The table in which no value carries a mark. -/
def empty (field : Field) : MarkTable :=
  ⟨field, Array.replicate (field.max + 1) 0#8, 0#8⟩

/-- The values of a field, in ascending order. -/
def domain (field : Field) : List Nat := List.range' field.min (field.max + 1 - field.min)

variable (table : MarkTable) (value : Nat) (marks : Marks)

/-- The marks of a value. -/
def marksOf : Marks := table.entries.getD value 0#8

/-- The table with the marks of a value replaced. -/
def replace : MarkTable := { table with entries := table.entries.setIfInBounds value marks }

/-- Refuses a value outside the field, then marks the field does not support. -/
@[inline] def check : Except Fault Unit :=
  if value < table.field.min ∨ table.field.max < value then .error (.valueOutOfRange value)
  else if table.field.supports marks then .ok ()
  else .error (.unsupportedMarks marks)

/-- The table with the marks added to a value. -/
def set : Except Fault MarkTable := do
  table.check value marks
  return table.replace value (table.marksOf value ||| marks)

/-- The table with the marks taken from a value. -/
def unset : Except Fault MarkTable := do
  table.check value marks
  return table.replace value (table.marksOf value &&& ~~~marks)

/-- Whether a value carries any of the marks. -/
@[inline] def isSet : Except Fault Bool := do
  table.check value marks
  return table.marksOf value &&& marks != 0#8

/-- The table with marks added for the field as a whole. -/
def enable : Except Fault MarkTable :=
  if table.field.supports marks then .ok { table with features := table.features ||| marks }
  else .error .unsupportedFeature

/-- Whether all of the marks hold for the field as a whole. -/
def isEnabled : Bool := table.features &&& marks == marks

/-- The first of the given values that matches plainly. -/
def firstPlain (table : MarkTable) : List Nat → Except Fault (Option Nat)
  | [] => .ok none
  | value :: values => do
    if ← table.isSet value Mark.plain.bits then return some value else table.firstPlain values

/-- The smallest value at or after `start` that matches plainly. -/
def next (start : Nat) : Except Fault (Option Nat) :=
  let start := Nat.max start table.field.min
  table.firstPlain (List.range' start (table.field.max + 1 - start))

/-- The values that carry any of the marks, in ascending order. -/
def valuesWith : List Nat :=
  (domain table.field).filter fun value => (table.isSet value marks).toOption.getD false

/-- Whether every value matches plainly.  Weekdays are counted from 0 to 6, where 7 has
no meaning of its own. -/
def isFull : Bool :=
  let largest := if table.field = .dayOfWeek then 6 else table.field.max
  table.entries.all (fun marks => marks &&& Mark.plain.bits != 0#8) table.field.min
    (largest + 1)

/-- The table with the same marks added to each of the values in turn. -/
def setAll (table : MarkTable) (marks : Marks) : List Nat → Except Fault MarkTable
  | [] => .ok table
  | value :: values => do (← table.set value marks).setAll marks values

/-- The weekday table with a mark moved from 7 to 0, where 7 carries it. -/
def moveSunday (mark : Mark) : Except Fault MarkTable := do
  if ← table.isSet 7 mark.bits then (← table.unset 7 mark.bits).set 0 mark.bits
  else return table

/-- The weekday table with the marks of 7 moved to 0, the other number of Sunday. -/
def foldSunday : Except Fault MarkTable := Mark.ofWeekdays.foldlM moveSunday table

/-- The values that carry any mark, each with its marks, in ascending order. -/
def marked : List (Nat × Marks) :=
  ((List.range table.entries.size).map fun value => (value, table.marksOf value)).filter
    fun entry => entry.2 != 0#8

@[simp] theorem field_empty (field : Field) : (empty field).field = field := rfl

@[simp] theorem size_empty (field : Field) : (empty field).entries.size = field.max + 1 := by
  simp [empty]

@[simp] theorem marksOf_empty (field : Field) (value : Nat) :
    (empty field).marksOf value = 0#8 := by
  simp only [marksOf, empty, Array.getD_eq_getD_getElem?, Array.getElem?_replicate]
  split <;> rfl

@[simp] theorem field_replace : (table.replace value marks).field = table.field := rfl

@[simp] theorem features_replace : (table.replace value marks).features = table.features := rfl

@[simp] theorem size_replace : (table.replace value marks).entries.size = table.entries.size := by
  simp [replace]

/-- A replacement shows at its own value, where the table has one, and nowhere else. -/
theorem marksOf_replace (other : Nat) :
    (table.replace value marks).marksOf other =
      if value = other ∧ value < table.entries.size then marks else table.marksOf other := by
  simp only [marksOf, replace, Array.getD_eq_getD_getElem?, Array.getElem?_setIfInBounds]
  by_cases h : value = other
  · by_cases hs : value < table.entries.size
    · subst h
      simp [hs]
    · subst h
      simp [hs]
  · simp [h]

theorem check_eq_ok_iff :
    table.check value marks = .ok () ↔
      (table.field.min ≤ value ∧ value ≤ table.field.max) ∧ table.field.supports marks := by
  unfold check
  split
  · rename_i h
    simp only [reduceCtorEq, false_iff]
    omega
  · rename_i h
    split
    · rename_i hs
      simp only [hs, and_true, true_iff]
      omega
    · rename_i hs
      simp [hs]

end MarkTable
end CronSchedule
