import CronSchedule.Text.Cut

/-! # The seconds field as an option

An expression has five fields, or six with a leading seconds field.  A
`SecondsMode` says which of the two a parser takes.
-/
namespace CronSchedule

/-- Whether the leading seconds field may, must or must not be present. -/
inductive SecondsMode where
  | optional
  | required
  | disallowed
  deriving DecidableEq

namespace SecondsMode

/-- The three modes. -/
def all : List SecondsMode := [optional, required, disallowed]

/-- The name of the mode. -/
def name : SecondsMode → String
  | optional => "optional"
  | required => "required"
  | disallowed => "disallowed"

/-- The mode with the given name, in any letter case. -/
def ofName? (text : String) : Option SecondsMode :=
  all.find? fun mode => Text.upper mode.name.toList == Text.upper text.toList

/-- What is said of a text that names no mode. -/
def unknownName : String := "Matching variant not found"

/-- Whether an expression may have this many fields. -/
def accepts : SecondsMode → Nat → Bool
  | optional, count => count == 5 || count == 6
  | required, count => count == 6
  | disallowed, count => count == 5

/-- The numbers of fields taken, in words. -/
def expected : SecondsMode → String
  | optional => "5 or 6"
  | required => "6"
  | disallowed => "5"

end SecondsMode
end CronSchedule
