import CronSchedule.Calendar.Date

/-! # Wall clocks

A date and a time of day with whole seconds.  A wall clock moves to the first instant of
the next second, minute, hour, day or month (`WallClock.advance?`), carrying as far as
needed, or has its hour, minute or second set and the smaller parts reset
(`WallClock.put?`).  Both end where the calendar does.  An advance is always later than
what it started from (`toSeconds_lt_of_advance?`), and so is a part that is set to a
larger value (`toSeconds_lt_of_put?`).
-/
namespace CronSchedule

/-- The parts of a wall clock that a search moves on. -/
inductive TimeUnit where
  | second
  | minute
  | hour
  | day
  | month
  deriving DecidableEq

/-- The unit in which a unit is counted. -/
def TimeUnit.larger : TimeUnit → TimeUnit
  | second => minute
  | minute => hour
  | hour => day
  | day | month => month

/-- A date and a time of day. -/
structure WallClock where
  date : Date
  hour : Nat
  minute : Nat
  second : Nat
  hour_lt : hour < 24
  minute_lt : minute < 60
  second_lt : second < 60
  deriving DecidableEq

namespace WallClock

/-- The number of the first of January 1970, where seconds are counted from. -/
def epochDay : Int := 719163

variable (clock : WallClock)

/-- The seconds since the start of 1970 on the same wall. -/
def toSeconds : Int :=
  (clock.date.dayNumber - epochDay) * 86400 + clock.hour * 3600 + clock.minute * 60 +
    clock.second

/-- The wall clock a number of seconds after the start of 1970. -/
def ofSeconds? (seconds : Int) : Option WallClock :=
  let time := (seconds % 86400).toNat
  (Date.ofDayNumber? (seconds / 86400 + epochDay)).map fun date =>
    ⟨date, time / 3600, time / 60 % 60, time % 60, by omega, by omega, by omega⟩

/-- The wall clock with the given date and time of day. -/
def ofParts? (date : Date) (hour minute second : Nat) : Option WallClock :=
  if h : hour < 24 ∧ minute < 60 ∧ second < 60 then
    some ⟨date, hour, minute, second, h.1, h.2.1, h.2.2⟩
  else none

/-- The start of a date. -/
def midnight (date : Date) : WallClock :=
  ⟨date, 0, 0, 0, by decide, by decide, by decide⟩

/-- The start of the next month. -/
def nextMonth? : Option WallClock := clock.date.nextMonth?.map midnight

/-- The start of the next day. -/
def nextDay? : Option WallClock := clock.date.next?.map midnight

/-- The start of the next hour. -/
def nextHour? : Option WallClock :=
  if h : clock.hour + 1 < 24 then
    some ⟨clock.date, clock.hour + 1, 0, 0, h, by decide, by decide⟩
  else clock.nextDay?

/-- The start of the next minute. -/
def nextMinute? : Option WallClock :=
  if h : clock.minute + 1 < 60 then
    some ⟨clock.date, clock.hour, clock.minute + 1, 0, clock.hour_lt, h, by decide⟩
  else clock.nextHour?

/-- The next second. -/
def nextSecond? : Option WallClock :=
  if h : clock.second + 1 < 60 then
    some ⟨clock.date, clock.hour, clock.minute, clock.second + 1, clock.hour_lt,
      clock.minute_lt, h⟩
  else clock.nextMinute?

/-- The first instant of the next unit. -/
def advance? : TimeUnit → Option WallClock
  | .second => clock.nextSecond?
  | .minute => clock.nextMinute?
  | .hour => clock.nextHour?
  | .day => clock.nextDay?
  | .month => clock.nextMonth?

/-- The wall clock with one part of the time of day set and the smaller parts zero.  A
value past the end of its part carries into the next larger one.  Dates are only ever
advanced, not set. -/
def put? (value : Nat) : TimeUnit → Option WallClock
  | .hour =>
    if h : value < 24 then some ⟨clock.date, value, 0, 0, h, by decide, by decide⟩
    else clock.nextDay?
  | .minute =>
    if h : value < 60 then
      some ⟨clock.date, clock.hour, value, 0, clock.hour_lt, h, by decide⟩
    else clock.nextHour?
  | .second =>
    if h : value < 60 then
      some ⟨clock.date, clock.hour, clock.minute, value, clock.hour_lt, clock.minute_lt, h⟩
    else clock.nextMinute?
  | .day | .month => none

variable {clock next : WallClock}

theorem toSeconds_nextDay (h : clock.nextDay? = some next) :
    next.toSeconds = (clock.date.dayNumber + 1 - epochDay) * 86400 := by
  obtain ⟨date, hd, rfl⟩ := Option.map_eq_some_iff.mp h
  simp [toSeconds, midnight, Date.dayNumber_next hd]

theorem toSeconds_nextHour (h : clock.nextHour? = some next) :
    next.toSeconds = clock.toSeconds - clock.second - clock.minute * 60 + 3600 := by
  unfold nextHour? at h
  split at h
  · cases h
    simp only [toSeconds]
    omega
  · have := clock.hour_lt
    rw [toSeconds_nextDay h, toSeconds]
    omega

theorem toSeconds_nextMinute (h : clock.nextMinute? = some next) :
    next.toSeconds = clock.toSeconds - clock.second + 60 := by
  unfold nextMinute? at h
  split at h
  · cases h
    simp only [toSeconds]
    omega
  · have := clock.minute_lt
    rw [toSeconds_nextHour h]
    omega

theorem toSeconds_nextSecond (h : clock.nextSecond? = some next) :
    next.toSeconds = clock.toSeconds + 1 := by
  unfold nextSecond? at h
  split at h
  · cases h
    simp only [toSeconds]
    omega
  · have := clock.second_lt
    rw [toSeconds_nextMinute h]
    omega

/-- A wall clock lies within its day. -/
theorem toSeconds_lt_nextDay (clock : WallClock) :
    clock.toSeconds < (clock.date.dayNumber + 1 - epochDay) * 86400 := by
  have := clock.hour_lt
  have := clock.minute_lt
  have := clock.second_lt
  rw [toSeconds]
  omega

/-- An advance is later than what it started from. -/
theorem toSeconds_lt_of_advance? {unit : TimeUnit} (h : clock.advance? unit = some next) :
    clock.toSeconds < next.toSeconds := by
  have hs := clock.second_lt
  have hm := clock.minute_lt
  cases unit with
  | second => rw [toSeconds_nextSecond h]; omega
  | minute => rw [toSeconds_nextMinute h]; omega
  | hour => rw [toSeconds_nextHour h]; omega
  | day => rw [toSeconds_nextDay h]; exact clock.toSeconds_lt_nextDay
  | month =>
    obtain ⟨date, hd, rfl⟩ := Option.map_eq_some_iff.mp h
    have hlt := Date.dayNumber_lt_nextMonth hd
    have := clock.toSeconds_lt_nextDay
    simp only [toSeconds, midnight] at *
    omega

/-- The value of a part of the time of day. -/
def part (clock : WallClock) : TimeUnit → Nat
  | .second => clock.second
  | .minute => clock.minute
  | .hour => clock.hour
  | .day => clock.date.day
  | .month => clock.date.month

/-- A part set to a larger value makes the wall clock later. -/
theorem toSeconds_lt_of_put? {unit : TimeUnit} {value : Nat}
    (h : clock.put? value unit = some next) (hv : clock.part unit < value) :
    clock.toSeconds < next.toSeconds := by
  have hs := clock.second_lt
  have hm := clock.minute_lt
  cases unit with
  | second =>
    simp only [put?, part] at h hv
    split at h
    · cases h; simp only [toSeconds]; omega
    · rw [toSeconds_nextMinute h]; omega
  | minute =>
    simp only [put?, part] at h hv
    split at h
    · cases h; simp only [toSeconds]; omega
    · rw [toSeconds_nextHour h]; omega
  | hour =>
    simp only [put?, part] at h hv
    split at h
    · cases h; simp only [toSeconds]; omega
    · rw [toSeconds_nextDay h]; exact clock.toSeconds_lt_nextDay
  | day => cases h
  | month => cases h

/-- The second after the last one that the calendar holds. -/
def endOfCalendar : Int := (daysBeforeYear (lastYear + 1) + 1 - epochDay) * 86400

/-- Every wall clock lies before the end of the calendar. -/
theorem toSeconds_lt_endOfCalendar (clock : WallClock) : clock.toSeconds < endOfCalendar := by
  have := clock.toSeconds_lt_nextDay
  have := clock.date.dayNumber_le
  rw [endOfCalendar]
  omega

/-- The seconds left until the calendar ends. -/
def remaining (clock : WallClock) : Nat := (endOfCalendar - clock.toSeconds).toNat

/-- A later wall clock has less time left. -/
theorem remaining_lt (h : clock.toSeconds < next.toSeconds) :
    next.remaining < clock.remaining := by
  have := next.toSeconds_lt_endOfCalendar
  unfold remaining
  omega

end WallClock
end CronSchedule
