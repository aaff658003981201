import CronSchedule.Calendar.WallClock
import CronSchedule.Error

/-! # Carrying from place to place

A wall clock can be moved by its numbers alone.  A `Reading` has a number in each place from the
year down to the second, and there need not be such a wall clock: one more in a place may be too
much.  Which of the numbers is too large is not asked.  The place that was changed is taken to be
full, the next larger one gets one more, and so on until a wall clock shows the reading or the
places end with the year (`Place.moveTo`).  A wall clock that cannot be moved stays as it is.
-/
namespace CronSchedule

/-- The places of a wall clock, in each of which there is a number. -/
inductive Place where
  | second
  | minute
  | hour
  | day
  | month
  | year
  deriving DecidableEq

/-- A number in each place. -/
structure Reading where
  year : Int
  month : Nat
  day : Nat
  hour : Nat
  minute : Nat
  second : Nat
  deriving DecidableEq

/-- The numbers that a wall clock shows. -/
def WallClock.reading (clock : WallClock) : Reading :=
  ⟨clock.date.year, clock.date.month, clock.date.day, clock.hour, clock.minute, clock.second⟩

namespace Reading

variable (reading : Reading)

/-- The wall clock that shows these numbers, if there is one. -/
def clock? : Option WallClock := do
  let date ← Date.ofYMD? reading.year reading.month reading.day
  WallClock.ofParts? date reading.hour reading.minute reading.second

/-- One more in a place, and the smaller places at their start. -/
def bump : Place → Reading
  | .second => { reading with second := reading.second + 1 }
  | .minute => { reading with minute := reading.minute + 1, second := 0 }
  | .hour => { reading with hour := reading.hour + 1, minute := 0, second := 0 }
  | .day => { reading with day := reading.day + 1, hour := 0, minute := 0, second := 0 }
  | .month => ⟨reading.year, reading.month + 1, 1, 0, 0, 0⟩
  | .year => ⟨reading.year + 1, 1, 1, 0, 0, 0⟩

/-- Another number in a place of the time of day, and the smaller places at zero.  The places of
the date are only ever advanced. -/
def put? (value : Nat) : Place → Option Reading
  | .second => some { reading with second := value }
  | .minute => some { reading with minute := value, second := 0 }
  | .hour => some { reading with hour := value, minute := 0, second := 0 }
  | .day | .month | .year => none

end Reading

namespace Place

/-- The next larger place. -/
def larger? : Place → Option Place
  | second => some minute
  | minute => some hour
  | hour => some day
  | day => some month
  | month => some year
  | year => none

/-- How many places are larger. -/
def rank : Place → Nat
  | second => 5
  | minute => 4
  | hour => 3
  | day => 2
  | month => 1
  | year => 0

theorem rank_lt_of_larger? {place larger : Place} (h : place.larger? = some larger) :
    larger.rank < place.rank := by
  cases place <;> cases h <;> decide

/-- Moves a wall clock to a reading.  Where no wall clock shows it, a place carries into the next
larger one. -/
def moveTo (place : Place) (reading : Reading) : EStateM Error WallClock Unit :=
  match reading.clock? with
  | some clock => set clock
  | none =>
    match h : place.larger? with
    | some larger =>
      have := rank_lt_of_larger? h
      moveTo larger (reading.bump larger)
    | none => throw .invalidDate
termination_by place.rank

/-- Moves a wall clock to the next second, minute, hour, day or month.  A year is only ever
carried into. -/
def increment : Place → EStateM Error WallClock Unit
  | year => throw .invalidDate
  | place => do place.moveTo ((← get).reading.bump place)

/-- Sets a place of the time of day of a wall clock, and the smaller places to zero. -/
def put (place : Place) (value : Nat) : EStateM Error WallClock Unit := do
  match (← get).reading.put? value place with
  | some reading => place.moveTo reading
  | none => throw .invalidDate

end Place

end CronSchedule
