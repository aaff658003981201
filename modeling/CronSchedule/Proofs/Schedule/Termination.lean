import CronSchedule.Proofs.Schedule.Runs

/-! # Every search ends

A search is a loop within a loop, and neither counts its passes.  Here both are written with
a limit on the passes instead of a measure (`loopWithin`), so that a loop may be left open.
Each pass that goes on moves to a later wall clock (`toSeconds_lt_of_walkTurn`,
`toSeconds_lt_of_searchTurn`), and the inner loop stops after the last year of the horizon.
So no loop makes more passes than there are seconds left in these years, and with as many
passes the two loops give the answer of the search (`nextOccurrence_ends`).
-/
namespace CronSchedule

/-! ## Loops with a limit -/

/-- What one pass of a loop comes to. -/
inductive Turn (State Answer : Type) where
  /-- The loop is left with an answer. -/
  | done (answer : Answer)
  /-- The loop goes on from another state. -/
  | again (state : State)

/-- The answer of a loop that is left within a number of passes.  It has none when they do
not suffice, or when a pass itself does not come to an end. -/
def loopWithin {State Answer : Type} (turn : State → Option (Turn State Answer)) :
    Nat → State → Option Answer
  | 0, _ => none
  | passes + 1, state =>
    match turn state with
    | some (.done answer) => some answer
    | some (.again next) => loopWithin turn passes next
    | none => none

/-- A loop has its answer once it may make more passes than are left, where every pass leaves
it with the answer or goes on, with the same answer and fewer passes left. -/
theorem loopWithin_eq_some {State Answer : Type} {turn : State → Option (Turn State Answer)}
    {answer : State → Answer} {left : State → Nat} {bound passes : Nat} {state : State}
    (hturn : ∀ state, left state < bound → turn state = some (.done (answer state)) ∨
      ∃ next, turn state = some (.again next) ∧ answer next = answer state ∧
        left next < left state)
    (hleft : left state < passes) (hbound : passes ≤ bound) :
    loopWithin turn passes state = some (answer state) := by
  induction passes generalizing state with
  | zero => exact absurd hleft (Nat.not_lt_zero _)
  | succ passes ih =>
    rw [loopWithin]
    rcases hturn state (Nat.lt_of_lt_of_le hleft hbound) with hdone | ⟨next, hagain, hsame, hlt⟩
    · rw [hdone]
    · rw [hagain, ← hsame]
      exact ih (by omega) (by omega)

/-! ## The time that is left -/

namespace WallClock

variable {clock next : WallClock} {year : Int}

/-- The first second after a year. -/
def endOfYear (year : Int) : Int := (daysBeforeYear (year + 1) + 1 - epochDay) * 86400

/-- The seconds from a wall clock to the end of a year. -/
def secondsTo (year : Int) (clock : WallClock) : Nat := (endOfYear year - clock.toSeconds).toNat

theorem toSeconds_lt_endOfYear (h : clock.date.year ≤ year) :
    clock.toSeconds < endOfYear year := by
  have hday := clock.toSeconds_lt_nextDay
  have hyear := clock.date.dayNumber_mem_year.2
  have hmono : daysBeforeYear (clock.date.year + 1) ≤ daysBeforeYear (year + 1) :=
    daysBeforeYear_mono (by omega)
  rw [endOfYear]
  omega

/-- A later wall clock has fewer seconds left. -/
theorem secondsTo_lt (hyear : clock.date.year ≤ year) (h : clock.toSeconds < next.toSeconds) :
    next.secondsTo year < clock.secondsTo year := by
  have := toSeconds_lt_endOfYear hyear
  unfold secondsTo
  omega

/-- To the end of a year it takes no longer than so many leap years. -/
theorem secondsTo_le (hle : clock.toSeconds ≤ next.toSeconds) (years : Nat) :
    next.secondsTo (clock.date.year + years) ≤ (years + 1) * 366 * 86400 := by
  have hyear := clock.date.dayNumber_mem_year.1
  have hdays : daysBeforeYear (clock.date.year + years + 1) ≤
      daysBeforeYear clock.date.year + 366 * (years + 1) := by
    unfold daysBeforeYear
    omega
  have hday : (clock.date.dayNumber - epochDay) * 86400 ≤ clock.toSeconds := by
    rw [toSeconds]
    omega
  unfold secondsTo endOfYear
  omega

end WallClock

/-! ## The two loops -/

namespace Schedule

variable {schedule : Schedule} {zone : Zone} {accepts : Instant → Bool} {limit : Int}
  {passes : Nat} {clock next : WallClock} {start : Instant} {inclusive : Bool}

/-- One pass of the walk over wall clocks. -/
def walkTurn (schedule : Schedule) (limit : Int) (clock : WallClock) :
    Turn WallClock (Except Error WallClock) :=
  if limit < clock.date.year then .done (.error (.exhausted schedule.horizon))
  else
    match schedule.pattern.pass clock with
    | .error e => .done (.error e)
    | .ok (.found found) => .done (.ok found)
    | .ok (.carry stop unit) =>
      match stop.advance? unit with
      | none => .done (.error .invalidDate)
      | some next => .again next

/-- What becomes of the match a walk ends at: the answer of the search, or the second from
which the next walk starts. -/
def turnAfter (zone : Zone) (accepts : Instant → Bool) :
    Except Error WallClock → Turn WallClock (Except Error Instant)
  | .error e => .done (.error e)
  | .ok found =>
    match (zone.earliest? found).filter accepts with
    | some instant => .done (.ok instant)
    | none =>
      match found.nextSecond? with
      | none => .done (.error .invalidTime)
      | some next => .again next

/-- One pass of the search, if its walk ends within a number of passes. -/
def searchTurn (schedule : Schedule) (zone : Zone) (accepts : Instant → Bool) (limit : Int)
    (passes : Nat) (clock : WallClock) : Option (Turn WallClock (Except Error Instant)) :=
  (loopWithin (fun clock => some (schedule.walkTurn limit clock)) passes clock).map
    (turnAfter zone accepts)

/-- The answer of a search, if no loop of it makes more than a number of passes. -/
def searchWithin (schedule : Schedule) (passes : Nat) (zone : Zone) (start : Instant)
    (inclusive : Bool) : Option (Except Error Instant) :=
  match zone.wallClock? start with
  | none => some (.error .calendarOverflow)
  | some clock =>
    match firstSecond? clock start inclusive with
    | none => some (.error .invalidTime)
    | some first =>
      loopWithin (schedule.searchTurn zone (isLateEnough start inclusive)
        (clock.date.year + schedule.horizon) passes) passes first

/-! ### Passes of the walk -/

/-- A walk is one pass, and the walk from where it goes on. -/
theorem firstMatch_eq (schedule : Schedule) (limit : Int) (clock : WallClock) :
    schedule.firstMatch limit clock =
      match schedule.walkTurn limit clock with
      | .done answer => answer
      | .again next => schedule.firstMatch limit next := by
  rw [walkTurn]
  fun_cases schedule.firstMatch limit clock with
  | case1 hlimit => rw [if_pos hlimit]
  | case2 hlimit e hpass => rw [if_neg hlimit, hpass]
  | case3 hlimit found hpass => rw [if_neg hlimit, hpass]
  | case4 hlimit stop unit hpass hnext => rw [if_neg hlimit, hpass]; simp only [hnext]
  | case5 hlimit stop unit hpass next hnext _ => rw [if_neg hlimit, hpass]; simp only [hnext]

/-- A pass of the walk goes on within its years only, and to a later wall clock. -/
theorem walkTurn_eq_again (h : schedule.walkTurn limit clock = .again next) :
    clock.date.year ≤ limit ∧ clock.toSeconds < next.toSeconds := by
  unfold walkTurn at h
  split at h
  · cases h
  · rename_i hlimit
    refine ⟨Int.not_lt.mp hlimit, ?_⟩
    split at h
    · cases h
    · cases h
    · rename_i stop unit hpass
      split at h
      · cases h
      · rename_i later hlater
        cases h
        exact Pattern.toSeconds_lt_of_carry hpass hlater

theorem toSeconds_lt_of_walkTurn (h : schedule.walkTurn limit clock = .again next) :
    clock.toSeconds < next.toSeconds :=
  (walkTurn_eq_again h).2

/-- With more passes than there are seconds to the end of its years, a walk ends. -/
theorem loopWithin_walkTurn (h : clock.secondsTo limit < passes) :
    loopWithin (fun clock => some (schedule.walkTurn limit clock)) passes clock =
      some (schedule.firstMatch limit clock) := by
  refine loopWithin_eq_some (fun clock _ => ?_) h (Nat.le_refl passes)
  have hfirst := schedule.firstMatch_eq limit clock
  cases hturn : schedule.walkTurn limit clock with
  | done answer =>
    rw [hturn] at hfirst
    rw [hfirst]
    exact .inl rfl
  | again next =>
    rw [hturn] at hfirst
    obtain ⟨hyear, hlt⟩ := walkTurn_eq_again hturn
    exact .inr ⟨next, rfl, hfirst.symm, WallClock.secondsTo_lt hyear hlt⟩

/-- A walk that starts after its years finds nothing. -/
theorem year_le_of_firstMatch {found : WallClock}
    (h : schedule.firstMatch limit clock = .ok found) : clock.date.year ≤ limit := by
  by_contra hlimit
  have hturn : schedule.walkTurn limit clock = .done (.error (.exhausted schedule.horizon)) := by
    rw [walkTurn, if_pos (Int.not_le.mp hlimit)]
  rw [firstMatch_eq, hturn] at h
  cases h

/-! ### Passes of the search -/

/-- A search is one walk, what becomes of its match, and the search from where it goes on. -/
theorem firstInstant_eq (schedule : Schedule) (zone : Zone) (accepts : Instant → Bool)
    (limit : Int) (clock : WallClock) :
    schedule.firstInstant zone accepts limit clock =
      match turnAfter zone accepts (schedule.firstMatch limit clock) with
      | .done answer => answer
      | .again next => schedule.firstInstant zone accepts limit next := by
  unfold turnAfter
  fun_cases schedule.firstInstant zone accepts limit clock with
  | case1 e hmatch => rw [hmatch]
  | case2 found hmatch instant hsome => rw [hmatch]; simp only [hsome]
  | case3 found hmatch hnone hnext => rw [hmatch]; simp only [hnone, hnext]
  | case4 found hmatch hnone next hnext _ => rw [hmatch]; simp only [hnone, hnext]

/-- A search goes on from the second after a match. -/
theorem turnAfter_eq_again {outcome : Except Error WallClock}
    (h : turnAfter zone accepts outcome = .again next) :
    ∃ found, outcome = .ok found ∧ found.nextSecond? = some next := by
  unfold turnAfter at h
  split at h
  · cases h
  · rename_i found
    split at h
    · cases h
    · split at h
      · cases h
      · rename_i later hlater
        cases h
        exact ⟨found, rfl, hlater⟩

/-- Where a walk ends, it does as the walk without a limit on its passes. -/
theorem eq_firstMatch_of_loopWithin {outcome : Except Error WallClock}
    (h : loopWithin (fun clock => some (schedule.walkTurn limit clock)) passes clock =
      some outcome) : outcome = schedule.firstMatch limit clock := by
  induction passes generalizing clock with
  | zero => cases h
  | succ passes ih =>
    rw [loopWithin] at h
    rw [firstMatch_eq]
    cases hturn : schedule.walkTurn limit clock with
    | done answer =>
      rw [hturn] at h
      exact (Option.some.inj h).symm
    | again next =>
      rw [hturn] at h
      exact ih h

/-- A pass of the search goes on to a later wall clock. -/
theorem toSeconds_lt_of_searchTurn
    (h : schedule.searchTurn zone accepts limit passes clock = some (.again next)) :
    clock.toSeconds < next.toSeconds := by
  obtain ⟨outcome, hwalk, hturn⟩ := Option.map_eq_some_iff.mp h
  obtain ⟨found, rfl, hnext⟩ := turnAfter_eq_again hturn
  exact toSeconds_lt_of_firstMatch (eq_firstMatch_of_loopWithin hwalk).symm hnext

/-- With more passes than there are seconds to the end of its years, a search ends. -/
theorem loopWithin_searchTurn (h : clock.secondsTo limit < passes) :
    loopWithin (schedule.searchTurn zone accepts limit passes) passes clock =
      some (schedule.firstInstant zone accepts limit clock) := by
  refine loopWithin_eq_some (fun clock hclock => ?_) h (Nat.le_refl passes)
  have hfirst := schedule.firstInstant_eq zone accepts limit clock
  rw [searchTurn, loopWithin_walkTurn hclock, Option.map_some]
  cases hturn : turnAfter zone accepts (schedule.firstMatch limit clock) with
  | done answer =>
    rw [hturn] at hfirst
    rw [hfirst]
    exact .inl rfl
  | again next =>
    rw [hturn] at hfirst
    obtain ⟨found, hmatch, hnext⟩ := turnAfter_eq_again hturn
    have hyear := year_le_of_firstMatch hmatch
    have hlt := toSeconds_lt_of_firstMatch hmatch hnext
    exact .inr ⟨next, rfl, hfirst.symm, WallClock.secondsTo_lt hyear hlt⟩

/-- The loops of a search make no more passes than there are seconds in the years of its
horizon. -/
theorem searchWithin_eq_some (h : (schedule.horizon + 1) * 366 * 86400 < passes) :
    schedule.searchWithin passes zone start inclusive =
      some (schedule.nextOccurrence zone start inclusive) := by
  unfold searchWithin nextOccurrence
  cases zone.wallClock? start with
  | none => rfl
  | some clock =>
    cases hfirst : firstSecond? clock start inclusive with
    | none => simp only [hfirst]
    | some first =>
      simp only [hfirst]
      have hle := ((le_firstSecond?_iff hfirst).mp (Int.le_refl _)).1
      have hleft := WallClock.secondsTo_le hle schedule.horizon
      exact loopWithin_searchTurn (Nat.lt_of_le_of_lt hleft h)

/-! ## Where a search ends -/

/-- **Every search ends.**  A pass of either loop that goes on moves to a later wall clock.
So neither makes more passes than there are seconds in the years of the horizon, and within
these passes the loops give the answer.  An instant that is answered has a wall clock within
the horizon, and only a search whose horizon reaches the last year of the calendar can fail
with anything but its horizon. -/
theorem nextOccurrence_ends {options : ParseOptions} {expression : String}
    (hparse : parseWith options expression = .ok schedule)
    (hclock : zone.wallClock? start = some clock) (inclusive : Bool) :
    (∀ limit here next, schedule.walkTurn limit here = .again next →
      here.toSeconds < next.toSeconds) ∧
    (∀ limit passes here next,
      schedule.searchTurn zone (isLateEnough start inclusive) limit passes here =
        some (.again next) → here.toSeconds < next.toSeconds) ∧
    (∀ passes, (options.horizon + 1) * 366 * 86400 < passes →
      schedule.searchWithin passes zone start inclusive =
        some (schedule.nextOccurrence zone start inclusive)) ∧
    (∀ instant, schedule.nextOccurrence zone start inclusive = .ok instant →
      ∃ found, zone.wallClock? instant = some found ∧
        found.date.year ≤ clock.date.year + options.horizon) ∧
    (∀ error, schedule.nextOccurrence zone start inclusive = .error error →
      error = .exhausted options.horizon ∨ lastYear ≤ clock.date.year + options.horizon) := by
  have haligned := aligned_of_parseWith hparse
  have hhorizon : schedule.horizon = options.horizon := horizon_of_parseWith hparse
  rw [← hhorizon]
  refine ⟨fun _ _ _ => toSeconds_lt_of_walkTurn, fun _ _ _ _ => toSeconds_lt_of_searchTurn,
    fun _ => searchWithin_eq_some, fun instant hfound => ?_, fun error herror => ?_⟩
  · obtain ⟨-, -, found, hshown, hyear, -⟩ := fires_of_nextOccurrence haligned hclock hfound
    exact ⟨found, hshown, hyear⟩
  · rcases Int.lt_or_le (clock.date.year + schedule.horizon) lastYear with hlt | hge
    · exact .inl (not_isCandidate_of_nextOccurrence haligned hclock hlt herror).1
    · exact .inr hge

/-- A search for a day of the month that no date has looks through all of its years. -/
theorem nextOccurrence_ends_without_days :
    ∃ schedule clock, parseWith { horizon := 65535 } "0 0 32/1 * *" = .ok schedule ∧
      schedule.pattern.days.marked = [] ∧ Zone.utc.wallClock? ⟨1711796400, 5⟩ = some clock ∧
    (∀ limit here next, schedule.walkTurn limit here = .again next →
      here.toSeconds < next.toSeconds) ∧
    (∀ limit passes here next,
      schedule.searchTurn .utc (isLateEnough ⟨1711796400, 5⟩ true) limit passes here =
        some (.again next) → here.toSeconds < next.toSeconds) ∧
    (∀ passes, (65535 + 1) * 366 * 86400 < passes →
      schedule.searchWithin passes .utc ⟨1711796400, 5⟩ true =
        some (schedule.nextOccurrence .utc ⟨1711796400, 5⟩ true)) ∧
    (∀ instant, schedule.nextOccurrence .utc ⟨1711796400, 5⟩ true = .ok instant →
      ∃ found, Zone.utc.wallClock? instant = some found ∧
        found.date.year ≤ clock.date.year + 65535) ∧
    (∀ error, schedule.nextOccurrence .utc ⟨1711796400, 5⟩ true = .error error →
      error = .exhausted 65535 ∨ lastYear ≤ clock.date.year + 65535) := by
  obtain ⟨schedule, hparse, hdays⟩ := map_eq_ok_iff.mp
    (show (parseWith { horizon := 65535 } "0 0 32/1 * *").map (·.pattern.days.marked) =
      .ok [] by decide +kernel)
  obtain ⟨clock, hclock⟩ := Option.isSome_iff_exists.mp
    (show (Zone.utc.wallClock? ⟨1711796400, 5⟩).isSome = true by decide)
  exact ⟨schedule, clock, hparse, hdays, hclock, nextOccurrence_ends hparse hclock true⟩

end Schedule
end CronSchedule
