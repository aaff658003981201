import CronSchedule.Element.Reader
import CronSchedule.Mark.Table

/-! # Entering a token into a table

A normalized token is a star or a comma list.  Its elements are entered one after the
other; an element that cannot be entered leaves the table as the earlier ones made it.
-/
namespace CronSchedule.MarkTable

/-- The table with one element entered. -/
def enter (table : MarkTable) (element : Element) : Except Fault MarkTable :=
  if element = .lastDay then table.enable element.mark.bits
  else table.setAll element.mark.bits (element.values table.field)

/-- The table with the text of one element read and entered. -/
def enterText (table : MarkTable) (text : List Char) : Except Fault MarkTable := do
  table.enter (← Element.read table.field text)

/-- The table with the elements entered up to the first that fails, and its fault. -/
def enterTexts (table : MarkTable) : List (List Char) → MarkTable × Option Fault
  | [] => (table, none)
  | text :: texts =>
    match table.enterText text with
    | .ok table => table.enterTexts texts
    | .error fault => (table, some fault)

/-- The table with a normalized token entered, as far as it can be. -/
def enterToken (table : MarkTable) (token : List Char) : MarkTable × Option Fault :=
  if token = ['*'] then
    match table.setAll Mark.plain.bits (domain table.field) with
    | .ok table => (table, none)
    | .error fault => (table, some fault)
  else table.enterTexts (token.splitOn ',')

/-- The table of a normalized token. -/
def ofToken (field : Field) (token : List Char) : Except Fault MarkTable :=
  match (empty field).enterToken token with
  | (table, none) => .ok table
  | (_, some fault) => .error fault

end CronSchedule.MarkTable
