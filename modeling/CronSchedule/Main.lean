import CronSchedule.CommandLine
import Std.Time.Zoned.Database

/-! # The program

Reads the clock and the time zone of the machine and runs the command line.
-/
namespace CronSchedule.Main

/-- The seconds in a day. -/
def daySeconds : Int := 86400

/-- The first second after `early` and up to `late` from which on the offset is that of
`late`, by halving the interval a number of times. -/
def changeBetween (offsetAt : Int → Int) : Nat → Int → Int → Int
  | 0, _, late => late
  | halvings + 1, early, late =>
    let middle := (early + late) / 2
    if offsetAt middle = offsetAt late then changeBetween offsetAt halvings early middle
    else changeBetween offsetAt halvings middle late

/-- The zone with the offsets of a function over a number of days, one change a day at
most. -/
def sampleZone (offsetAt : Int → Int) (start : Int) (days : Nat) : Zone where
  offset := offsetAt start
  transitions := (List.range days).filterMap fun (day : Nat) =>
    let early := start + day * daySeconds
    let late := early + daySeconds
    if offsetAt early = offsetAt late then none
    else some (changeBetween offsetAt 17 early late, offsetAt late)

/-- The zone of the machine, from a day on, for longer than a search looks ahead. -/
def localZone (start : Int) : IO Zone := do
  try
    let rules ← Std.Time.Database.defaultGetLocalZoneRules
    let offsetAt (seconds : Int) : Int :=
      (rules.timezoneAt (Std.Time.Timestamp.ofSecondsSinceUnixEpoch ⟨seconds⟩)).offset.second.val
    return sampleZone offsetAt start (366 * (defaultHorizon + 2))
  catch _ => return Zone.utc

end CronSchedule.Main

open CronSchedule in
/-- Runs the program on the words of its command line. -/
def main (words : List String) : IO UInt32 := do
  let now ← Std.Time.Timestamp.now
  let seconds := now.toSecondsSinceUnixEpoch.val
  let nanos := now.toNanosecondsSinceUnixEpoch.val - seconds * 1000000000
  let zone ← Main.localZone (seconds - Main.daySeconds)
  let outcome := CommandLine.run words zone ⟨seconds, nanos.toNat⟩
  IO.print outcome.stdout
  IO.eprint outcome.stderr
  return outcome.code.toUInt32
