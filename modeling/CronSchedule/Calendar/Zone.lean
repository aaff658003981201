import CronSchedule.Calendar.WallClock

/-! # Zones and instants

An `Instant` is a point in time.  A `Zone` is an offset from UTC that changes at given
instants, and so shows a wall clock at every instant.  A wall-clock time may belong to no
instant, to one or to several, of which the earliest is the one that counts.  Where one of
them lies outside the calendar none of them counts.
-/
namespace CronSchedule

/-- A point in time.  A leap second keeps the number of the second before it and has a
fraction of a second or more. -/
structure Instant where
  /-- The whole seconds since the start of 1970 in UTC. -/
  seconds : Int
  /-- The fraction, in billionths of a second. -/
  nanos : Nat
  deriving DecidableEq

namespace Instant

/-- The instant with the given seconds and no fraction. -/
def ofSeconds (seconds : Int) : Instant := ⟨seconds, 0⟩

/-- Whether one instant comes before another. -/
def before (a b : Instant) : Bool :=
  a.seconds < b.seconds || (a.seconds == b.seconds && a.nanos < b.nanos)

end Instant

/-- An offset from UTC, in seconds to the east, that changes at given instants. -/
structure Zone where
  /-- The offset before the first change. -/
  offset : Int
  /-- The changes: from which second on, in UTC, and to which offset, in ascending order. -/
  transitions : List (Int × Int)

namespace Zone

/-- Universal time. -/
def utc : Zone := ⟨0, []⟩

variable (zone : Zone)

/-- The offset in force at a second, in UTC. -/
def offsetAt (seconds : Int) : Int :=
  zone.transitions.foldl
    (fun offset change => if change.1 ≤ seconds then change.2 else offset) zone.offset

/-- Every offset that is ever in force. -/
def offsets : List Int := zone.offset :: zone.transitions.map Prod.snd

/-- The wall clock of an instant, without its fraction, if the calendar holds it. -/
def wallClock? (instant : Instant) : Option WallClock :=
  WallClock.ofSeconds? (instant.seconds + zone.offsetAt instant.seconds)

/-- Whether the calendar holds a second in UTC. -/
def inCalendar (seconds : Int) : Bool := (WallClock.ofSeconds? seconds).isSome

/-- The seconds, in UTC, at which the zone shows a wall clock. -/
def secondsOf (clock : WallClock) : List Int :=
  -- only an offset that is in force at the second it leads to counts
  (zone.offsets.map (clock.toSeconds - ·)).filter fun seconds =>
    seconds + zone.offsetAt seconds == clock.toSeconds

/-- The earliest instant at which the zone shows a wall clock.  A wall clock that is shown
beyond either end of the calendar has none. -/
def earliest? (clock : WallClock) : Option Instant :=
  if (zone.secondsOf clock).all inCalendar then
    (zone.secondsOf clock).min?.map Instant.ofSeconds
  else none

end Zone
end CronSchedule
