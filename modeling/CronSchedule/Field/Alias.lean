import CronSchedule.Field.Basic
import CronSchedule.Text.Cut
import CronSchedule.Text.Numeral

/-! # Three-letter names

Months and weekdays may be written by name, in any letter case.  A name is resolved
on its own (`Field.aliasValue?`) or replaced by its number wherever it occurs in a
token (`Field.replaceAliases`).  A Sunday that ends a range is replaced by 7, so that
`SAT-SUN` ascends, unless the range starts on Sunday.
-/
namespace CronSchedule

open Text

/-- A name of three capital letters and the number it stands for. -/
structure Alias where
  first : Char
  second : Char
  third : Char
  value : Nat

namespace Alias

/-- The letters of the name. -/
def letters (a : Alias) : List Char := [a.first, a.second, a.third]

/-- The text with every occurrence of the name, from left to right, replaced by its
number. -/
def replaceIn (a : Alias) : List Char → List Char
  | x :: y :: z :: rest =>
    if x = a.first ∧ y = a.second ∧ z = a.third then decimal a.value ++ a.replaceIn rest
    else x :: a.replaceIn (y :: z :: rest)
  | text => text

end Alias

namespace Field

/-- The names of the months. -/
def monthAliases : List Alias :=
  [⟨'J', 'A', 'N', 1⟩, ⟨'F', 'E', 'B', 2⟩, ⟨'M', 'A', 'R', 3⟩, ⟨'A', 'P', 'R', 4⟩,
    ⟨'M', 'A', 'Y', 5⟩, ⟨'J', 'U', 'N', 6⟩, ⟨'J', 'U', 'L', 7⟩, ⟨'A', 'U', 'G', 8⟩,
    ⟨'S', 'E', 'P', 9⟩, ⟨'O', 'C', 'T', 10⟩, ⟨'N', 'O', 'V', 11⟩, ⟨'D', 'E', 'C', 12⟩]

/-- The names of the weekdays. -/
def weekdayAliases : List Alias :=
  [⟨'S', 'U', 'N', 0⟩, ⟨'M', 'O', 'N', 1⟩, ⟨'T', 'U', 'E', 2⟩, ⟨'W', 'E', 'D', 3⟩,
    ⟨'T', 'H', 'U', 4⟩, ⟨'F', 'R', 'I', 5⟩, ⟨'S', 'A', 'T', 6⟩]

/-- The names a field knows, in the order they are replaced. -/
def aliases : Field → List Alias
  | month => monthAliases
  | dayOfWeek => weekdayAliases
  | _ => []

/-- The number a name stands for, in any letter case. -/
def aliasValue? (field : Field) (name : List Char) : Option Nat :=
  (field.aliases.find? fun a => a.letters == upper name).map Alias.value

/-- An element with a Sunday closing a range written as 7, unless the range also
starts on Sunday. -/
def closeOnSunday (element : List Char) : List Char :=
  match cutAt? '-' element with
  | none => element
  | some (first, last) =>
    if first = ['S', 'U', 'N'] ∨ first = ['0'] then element
    else
      match ['S', 'U', 'N'].isPrefixOf? last with
      | none => element
      | some rest => first ++ '-' :: '7' :: rest

/-- A token in capitals with every name replaced by its number. -/
def replaceAliases (field : Field) (token : List Char) : List Char :=
  -- the end of a range has to be 7 before every Sunday becomes 0
  let closed :=
    if field = dayOfWeek then [','].intercalate ((token.splitOn ',').map closeOnSunday)
    else token
  field.aliases.foldl (fun text a => a.replaceIn text) closed

/-- A token ready to be read: capitals only, a lone question mark of a day field
written as a star, and numbers in place of names. -/
def normalize (field : Field) (token : List Char) : List Char :=
  if field.takesQuestionMark ∧ token = ['?'] then ['*']
  else field.replaceAliases (upper token)

/-- Whether a normalized token of the field may hold the character. -/
def allows (field : Field) (c : Char) : Bool :=
  c.isDigit || ['*', '/', ',', '-'].contains c || field.extraCharacters.contains c

end Field
end CronSchedule
