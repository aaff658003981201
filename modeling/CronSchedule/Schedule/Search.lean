import CronSchedule.Calendar.Zone
import CronSchedule.Schedule.Matching

/-! # Searching for the next occurrence

The search walks over wall clocks.  One pass compares the fields from the month down to
the second and either finds a match or names the unit that has to be carried; then the
wall clock moves to the first instant of the next such unit and the pass is repeated.
Every move makes the wall clock later, so the walk ends with the calendar at the latest.
What the walk finds is turned into an instant of the zone, and passed over when the zone
has none that is late enough.
-/
namespace CronSchedule

/-- What one pass over the fields comes to. -/
inductive Pass where
  /-- Every field matches. -/
  | found (clock : WallClock)
  /-- Nothing matches before the next unit after a wall clock. -/
  | carry (clock : WallClock) (unit : TimeUnit)

namespace Pass

/-- The wall clock a pass stops at. -/
def clock : Pass → WallClock
  | found clock => clock
  | carry clock _ => clock

end Pass

namespace MarkTable

theorem le_of_firstPlain {table : MarkTable} {start found : Nat} {values : List Nat}
    (hv : ∀ v ∈ values, start ≤ v) (h : table.firstPlain values = .ok (some found)) :
    start ≤ found := by
  induction values with
  | nil => cases h
  | cons value values ih =>
    rw [firstPlain] at h
    cases hs : table.isSet value Mark.plain.bits with
    | error e => rw [hs] at h; cases h
    | ok b =>
      rw [hs] at h
      cases b with
      | true => cases h; exact hv _ (List.mem_cons_self ..)
      | false => exact ih (fun v hm => hv v (List.mem_cons_of_mem _ hm)) h

/-- The next plain value does not come before the start. -/
theorem le_of_nextPlain {table : MarkTable} {start found : Nat}
    (h : table.nextPlain start = .ok (some found)) : start ≤ found := by
  unfold nextPlain at h
  cases hn : table.next start with
  | error e => rw [hn] at h; cases h
  | ok r =>
    rw [hn] at h
    cases h
    refine le_of_firstPlain (fun v hv => ?_) hn
    exact Nat.le_trans (Nat.le_max_left _ _) (List.mem_range'_1.mp hv).1

theorem le_of_nextUpTo {table : MarkTable} {largest start found : Nat}
    (h : table.nextUpTo largest start = .ok (some found)) : start ≤ found := by
  unfold nextUpTo at h
  split at h
  · cases h
  · exact le_of_nextPlain h

end MarkTable

namespace Pattern

variable (pattern : Pattern)

/-- The wall clock with one part of the time of day set. -/
def putPart (clock : WallClock) (value : Nat) (unit : TimeUnit) : Except Error WallClock :=
  match clock.put? value unit with
  | some clock => .ok clock
  | none => .error .invalidDate

/-- One part of a pass.  The part is moved to its next value if it is not there already, and
the rest of the pass goes on; without a next value the larger unit is to be carried. -/
def passPart (unit : TimeUnit) (next : Nat → Except Error (Option Nat))
    (rest : WallClock → Except Error Pass) (clock : WallClock) : Except Error Pass :=
  match next (clock.part unit) with
  | .error e => .error e
  | .ok none => .ok (.carry clock unit.larger)
  | .ok (some value) =>
    if value = clock.part unit then rest clock else (putPart clock value unit).bind rest

/-- The rest of a pass once the minute matches.  The second is set in any case. -/
def passSecond (clock : WallClock) : Except Error Pass :=
  match pattern.nextSecond clock.second with
  | .error e => .error e
  | .ok none => .ok (.carry clock .minute)
  | .ok (some second) => (putPart clock second .second).map .found

/-- The rest of a pass once the hour matches. -/
def passMinute : WallClock → Except Error Pass :=
  passPart .minute pattern.nextMinute pattern.passSecond

/-- The rest of a pass once the day matches. -/
def passHour : WallClock → Except Error Pass :=
  passPart .hour pattern.nextHour pattern.passMinute

/-- One pass over the fields, from the month down. -/
def pass (clock : WallClock) : Except Error Pass :=
  match pattern.matchesMonth clock.date.month with
  | .error e => .error e
  | .ok false => .ok (.carry clock .month)
  | .ok true =>
    match pattern.matchesDate clock.date with
    | .error e => .error e
    | .ok false => .ok (.carry clock .day)
    | .ok true => pattern.passHour clock

variable {pattern} {clock next : WallClock} {result : Pass}

theorem toSeconds_lt_of_putPart {unit : TimeUnit} {value : Nat}
    (h : putPart clock value unit = .ok next) (hv : clock.part unit < value) :
    clock.toSeconds < next.toSeconds := by
  unfold putPart at h
  cases hp : clock.put? value unit with
  | none => rw [hp] at h; cases h
  | some later => rw [hp] at h; cases h; exact WallClock.toSeconds_lt_of_put? hp hv

/-- A part of a pass does not go back where its next value and the rest of the pass do not. -/
theorem toSeconds_le_of_passPart {unit : TimeUnit} {next : Nat → Except Error (Option Nat)}
    {rest : WallClock → Except Error Pass}
    (hnext : ∀ {start found}, next start = .ok (some found) → start ≤ found)
    (hrest : ∀ {clock result}, rest clock = .ok result →
      clock.toSeconds ≤ result.clock.toSeconds)
    (h : passPart unit next rest clock = .ok result) :
    clock.toSeconds ≤ result.clock.toSeconds := by
  unfold passPart at h
  split at h
  · cases h
  · cases h
    exact Int.le_refl _
  · rename_i value hvalue
    split at h
    · exact hrest h
    · rename_i hne
      cases hput : putPart clock value unit with
      | error e => rw [hput] at h; cases h
      | ok later =>
        rw [hput] at h
        have hlt : clock.part unit < value := Nat.lt_of_le_of_ne (hnext hvalue) (Ne.symm hne)
        exact Int.le_trans (Int.le_of_lt (toSeconds_lt_of_putPart hput hlt)) (hrest h)

theorem toSeconds_le_of_passSecond (h : pattern.passSecond clock = .ok result) :
    clock.toSeconds ≤ result.clock.toSeconds := by
  unfold passSecond at h
  split at h
  · cases h
  · cases h
    exact Int.le_refl _
  · rename_i second hs
    have hle : clock.second ≤ second := MarkTable.le_of_nextUpTo hs
    cases hp : putPart clock second .second with
    | error e => rw [hp] at h; cases h
    | ok later =>
      rw [hp] at h
      cases h
      rcases Nat.lt_or_eq_of_le hle with hlt | rfl
      · exact Int.le_of_lt (toSeconds_lt_of_putPart hp hlt)
      · simp only [putPart, WallClock.put?, clock.second_lt, dite_true] at hp
        cases hp
        exact Int.le_refl _

/-- A pass never stops at an earlier wall clock. -/
theorem toSeconds_le_of_pass (h : pattern.pass clock = .ok result) :
    clock.toSeconds ≤ result.clock.toSeconds := by
  unfold pass at h
  split at h
  · cases h
  · cases h
    exact Int.le_refl _
  · split at h
    · cases h
    · cases h
      exact Int.le_refl _
    · exact toSeconds_le_of_passPart MarkTable.le_of_nextUpTo
        (toSeconds_le_of_passPart MarkTable.le_of_nextUpTo toSeconds_le_of_passSecond) h

/-- A carry after a pass makes the wall clock later. -/
theorem toSeconds_lt_of_carry {stop : WallClock} {unit : TimeUnit}
    (hp : pattern.pass clock = .ok (.carry stop unit)) (ha : stop.advance? unit = some next) :
    clock.toSeconds < next.toSeconds :=
  Int.lt_of_le_of_lt (toSeconds_le_of_pass hp) (WallClock.toSeconds_lt_of_advance? ha)

end Pattern

namespace Schedule

variable (schedule : Schedule)

/-- The first wall clock from the given one on that matches every field, up to the end of
a year. -/
def firstMatch (limit : Int) (clock : WallClock) : Except Error WallClock :=
  if limit < clock.date.year then .error (.exhausted schedule.horizon)
  else
    match hp : schedule.pattern.pass clock with
    | .error e => .error e
    | .ok (.found found) => .ok found
    | .ok (.carry stop unit) =>
      match ha : stop.advance? unit with
      | none => .error .invalidDate
      | some next =>
        have := WallClock.remaining_lt (Pattern.toSeconds_lt_of_carry hp ha)
        firstMatch limit next
termination_by clock.remaining

/-- What the walk finds does not come before its start. -/
theorem toSeconds_le_of_firstMatch {schedule : Schedule} {limit : Int} {clock found : WallClock}
    (h : schedule.firstMatch limit clock = .ok found) : clock.toSeconds ≤ found.toSeconds := by
  fun_induction schedule.firstMatch limit clock with
  | case3 clock _ stop hp =>
    have hle := Pattern.toSeconds_le_of_pass hp
    rw [Except.ok.injEq] at h
    rwa [Pass.clock, h] at hle
  | case5 clock _ stop unit hp next ha _ ih =>
    have hlt := Pattern.toSeconds_lt_of_carry hp ha
    exact Int.le_trans (Int.le_of_lt hlt) (ih h)
  | _ => simp at h

/-- The second after a match comes after the start of its walk. -/
theorem toSeconds_lt_of_firstMatch {schedule : Schedule} {limit : Int}
    {clock found next : WallClock}
    (hf : schedule.firstMatch limit clock = .ok found) (hn : found.nextSecond? = some next) :
    clock.toSeconds < next.toSeconds := by
  have := toSeconds_le_of_firstMatch hf
  have := WallClock.toSeconds_nextSecond hn
  omega

/-- The earliest instant of the first matching wall clock that has an accepted one.  The
others are passed over. -/
def firstInstant (zone : Zone) (accepts : Instant → Bool) (limit : Int)
    (clock : WallClock) : Except Error Instant :=
  match hf : schedule.firstMatch limit clock with
  | .error e => .error e
  | .ok found =>
    match (zone.earliest? found).filter accepts with
    | some instant => .ok instant
    | none =>
      -- the wall clock is skipped by the zone, or its instant is not late enough
      match hn : found.nextSecond? with
      | none => .error .invalidTime
      | some next =>
        have := WallClock.remaining_lt (toSeconds_lt_of_firstMatch hf hn)
        firstInstant zone accepts limit next
termination_by clock.remaining

/-- Whether the wall clock of an instant in a zone matches. -/
def isMatch (zone : Zone) (instant : Instant) : Except Error Bool :=
  match zone.wallClock? instant with
  | some clock => schedule.pattern.matchesClock clock
  | none => .error .calendarOverflow

/-- Whether an instant comes after a start, or is the start itself when that counts. -/
def isLateEnough (start : Instant) (inclusive : Bool) (instant : Instant) : Bool :=
  start.before instant || inclusive && instant == start

/-- The first whole second on a wall clock at which a search may find something. -/
def firstSecond? (clock : WallClock) (start : Instant) (inclusive : Bool) : Option WallClock :=
  if inclusive && start.nanos == 0 then some clock else clock.nextSecond?

/-- The next instant that matches after a start, or at the start itself when the search
includes it.  A start with a fraction of a second is never a match.  The search ends with
the year of the start plus the horizon. -/
def nextOccurrence (zone : Zone) (start : Instant) (inclusive : Bool) : Except Error Instant :=
  match zone.wallClock? start with
  | none => .error .calendarOverflow
  | some clock =>
    match firstSecond? clock start inclusive with
    | none => .error .invalidTime
    | some first =>
      schedule.firstInstant zone (isLateEnough start inclusive)
        (clock.date.year + schedule.horizon) first

end Schedule
end CronSchedule
