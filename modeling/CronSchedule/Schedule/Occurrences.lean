import CronSchedule.Schedule.Parsing
import CronSchedule.Schedule.Search

/-! # Lists of occurrences

`Occurrences` is the list of the times a schedule fires from some start on, computed one
at a time.  Each time starts the search for the next one.  The first error is the last
item.
-/
namespace CronSchedule

/-- How many occurrences are listed unless told otherwise. -/
def defaultCount : Nat := 5

/-- The occurrences of a schedule that are still to come. -/
structure Occurrences where
  schedule : Schedule
  zone : Zone
  /-- Where the next search starts. -/
  position : Instant
  /-- Whether the next search may answer its start. -/
  inclusive : Bool
  /-- Whether an error has ended the list. -/
  finished : Bool := false

namespace Schedule

variable (schedule : Schedule) (zone : Zone) (start : Instant)

/-- The occurrences after a start, or at it. -/
def occurrencesFrom : Occurrences := { schedule, zone, position := start, inclusive := true }

/-- The occurrences after a start. -/
def occurrencesAfter : Occurrences := { schedule, zone, position := start, inclusive := false }

end Schedule

namespace Occurrences

variable (occurrences : Occurrences)

/-- The next item, if there is one, and what comes after it. -/
def next : Option (Except Error Instant) × Occurrences :=
  if occurrences.finished then (none, occurrences)
  else
    match occurrences.schedule.nextOccurrence occurrences.zone occurrences.position
        occurrences.inclusive with
    | .ok found =>
      (some (.ok found), { occurrences with position := found, inclusive := false })
    | .error e => (some (.error e), { occurrences with finished := true })

/-- The first items, as many as there are up to a count, and what comes after them. -/
def items (occurrences : Occurrences) : Nat → List (Except Error Instant) × Occurrences
  | 0 => ([], occurrences)
  | count + 1 =>
    match occurrences.next with
    | (some item, rest) =>
      let (more, rest) := rest.items count
      (item :: more, rest)
    | (none, rest) => ([], rest)

/-- The first occurrences, or the error that ends them before the count is reached. -/
def take (occurrences : Occurrences) : Nat → Except Error (List Instant)
  | 0 => .ok []
  | count + 1 =>
    match occurrences.next with
    | (some (.ok found), rest) => (rest.take count).map (found :: ·)
    | (some (.error e), _) => .error e
    | (none, _) => .ok []

end Occurrences

/-- The first occurrences of an expression after a start, under the default options. -/
def executionsAfter (expression : String) (count : Nat) (zone : Zone) (start : Instant) :
    Except Error (List Instant) := do
  ((← Schedule.parse expression).occurrencesAfter zone start).take count

end CronSchedule
