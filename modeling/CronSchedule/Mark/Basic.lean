import CronSchedule.Field.Basic

/-! # Marks

A value of a field carries marks: it matches plainly, or only as the k-th or the last
such weekday of a month, or it stands for the weekday nearest to a day.  The marks of
one value are a byte with one bit for each.
-/
namespace CronSchedule

/-- A way in which a value of a field can match. -/
inductive Mark where
  /-- The value itself. -/
  | plain
  /-- The weekday for the first (`k = 0`) to fifth time in its month. -/
  | nth (k : Fin 5)
  /-- The weekday for the last time in its month. -/
  | last
  /-- The weekday nearest to the day. -/
  | nearestWeekday
  deriving DecidableEq

/-- A set of marks, one bit each. -/
abbrev Marks := BitVec 8

namespace Mark

/-- The set that holds one mark alone. -/
def bits : Mark → Marks
  | plain => 0b00000001#8
  | nth 0 => 0b00000010#8
  | nth 1 => 0b00000100#8
  | nth 2 => 0b00001000#8
  | nth 3 => 0b00010000#8
  | nth 4 => 0b00100000#8
  | last => 0b01000000#8
  | nearestWeekday => 0b10000000#8

/-- The marks that a weekday can carry. -/
def ofWeekdays : List Mark := [plain, last] ++ (List.finRange 5).map nth

end Mark

namespace Marks

/-- The eight binary digits of the set, the highest first. -/
def binary (marks : Marks) : String :=
  String.ofList <| (List.range 8).reverse.map fun i => if marks.getLsbD i then '1' else '0'

end Marks

namespace Field

/-- The marks the values of a field may carry. -/
def supported : Field → Marks
  | dayOfMonth => 0b11000001#8
  | dayOfWeek => 0b01111111#8
  | _ => 0b00000001#8

/-- Whether every mark of the set is one the field supports. -/
@[inline] def supports (field : Field) (marks : Marks) : Bool :=
  field.supported &&& marks == marks

@[simp] theorem supports_plain (field : Field) : field.supports Mark.plain.bits = true := by
  cases field <;> decide

end Field
end CronSchedule
