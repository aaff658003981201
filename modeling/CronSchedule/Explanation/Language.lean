import CronSchedule.Field.Basic

/-! # Languages

A `Language` is the set of phrases that explanations are made of.  `Language.english` is
the one that comes with the library.
-/
namespace CronSchedule

/-- The phrases of explanations in one language. -/
structure Language where
  /-- The word for one step of a field. -/
  unit : Field → String
  /-- Every unit. -/
  everyUnit : String → String
  /-- Every so many units. -/
  everyUnits : Nat → String → String
  /-- From one value to another. -/
  fromTo : String → String → String
  /-- From one value on. -/
  upFrom : String → String
  /-- A phrase, every so many units. -/
  withStep : String → Nat → String → String
  /-- At what a phrase names. -/
  atPhrase : String → String
  /-- What stands between the elements of a list. -/
  listSeparator : String
  /-- A range inside a list. -/
  listRange : String → String → String
  /-- The seven weekdays from Sunday on. -/
  weekdayNames : List String
  /-- The twelve months from January on. -/
  monthNames : List String
  length_weekdayNames : weekdayNames.length = 7 := by rfl
  length_monthNames : monthNames.length = 12 := by rfl

namespace Language

/-- English phrases. -/
def english : Language where
  unit := Field.unit
  everyUnit unit := s!"Every {unit}"
  everyUnits step unit := s!"Every {step} {unit}s"
  fromTo first last := s!"From {first} to {last}"
  upFrom first := s!"From {first}"
  withStep phrase step unit := s!"{phrase}, every {step} {unit}s"
  atPhrase phrase := s!"At {phrase}"
  listSeparator := ", "
  listRange first last := s!"{first}-{last}"
  weekdayNames :=
    ["Sunday", "Monday", "Tuesday", "Wednesday", "Thursday", "Friday", "Saturday"]
  monthNames :=
    ["January", "February", "March", "April", "May", "June", "July", "August",
      "September", "October", "November", "December"]

end Language
end CronSchedule
