import CronSchedule.Decimal.Layout
import CronSchedule.Text.Cut

/-! # Interchange values

Values as they are exchanged with other programs, and their printed form: indented by two
blanks a level, with one entry a line.
-/
namespace CronSchedule

/-- A value to exchange. -/
inductive Value where
  | null
  | boolean (b : Bool)
  | integer (n : Int)
  | number (x : Float)
  | text (s : String)
  | sequence (items : List Value)
  | record (entries : List (String × Value))
  deriving Inhabited

namespace Value

/-- Two hexadecimal digits. -/
def hexPair (n : Nat) : List Char := [Nat.digitChar (n / 16), Nat.digitChar (n % 16)]

/-- A character inside quotes. -/
def escape (c : Char) : List Char :=
  if c = '"' then ['\\', '"']
  else if c = '\\' then ['\\', '\\']
  else if c = '\n' then ['\\', 'n']
  else if c = '\r' then ['\\', 'r']
  else if c = '\t' then ['\\', 't']
  else if c.toNat = 0x08 then ['\\', 'b']
  else if c.toNat = 0x0C then ['\\', 'f']
  else if c.toNat < 0x20 then ['\\', 'u', '0', '0'] ++ hexPair c.toNat
  else [c]

/-- A text inside quotes. -/
def quote (s : String) : String :=
  String.ofList ('"' :: s.toList.flatMap escape ++ ['"'])

/-- A new line at a level of indentation. -/
def newLine (level : Nat) : String := String.ofList ('\n' :: List.replicate (2 * level) ' ')

/-- Printed items between brackets, each on a line of its own. -/
def block (opening closing : String) (level : Nat) (items : List String) : String :=
  if items.isEmpty then opening ++ closing
  else
    opening ++ ",".intercalate (items.map (newLine (level + 1) ++ ·)) ++ newLine level ++
      closing

mutual

/-- A value printed at a level of indentation. -/
def print (level : Nat) : Value → String
  | null => "null"
  | boolean b => if b then "true" else "false"
  | integer n => toString n
  | number x => Decimal.text x
  | text s => quote s
  | sequence items => block "[" "]" level (printItems (level + 1) items)
  | record entries => block "\x7b" "\x7d" level (printEntries (level + 1) entries)

/-- Items printed at a level of indentation. -/
def printItems (level : Nat) : List Value → List String
  | [] => []
  | item :: items => print level item :: printItems level items

/-- Named items printed at a level of indentation. -/
def printEntries (level : Nat) : List (String × Value) → List String
  | [] => []
  | (name, item) :: entries =>
    (quote name ++ ": " ++ print level item) :: printEntries level entries

end

/-- What kind of value it is, in words. -/
def describe : Value → String
  | null => "null"
  | boolean b => if b then "boolean `true`" else "boolean `false`"
  | integer n => s!"integer `{n}`"
  | number x => "floating point `" ++ Decimal.text x ++ "`"
  | text s => "string " ++ quote s
  | sequence _ => "sequence"
  | record _ => "map"

/-- The entry of a record with a given name. -/
def lookup? (name : String) (entries : List (String × Value)) : Option Value :=
  (entries.find? fun entry => entry.1 == name).map Prod.snd

end Value
end CronSchedule
