import CronSchedule.Proofs.Calendar.YearShape
import CronSchedule.Proofs.Schedule.ExactSearch
import CronSchedule.Proofs.Schedule.SameQuestions

/-! # How far ahead a search has to look

Whether a wall clock matches depends on its year only through the shape of the year
(`matchesClock_eq`).  Every shape occurs in any 40 years in a row, so a pattern that matches
at all matches within 40 years of any start (`exists_match_after`).  In a zone with one
offset nothing that matches is skipped: a search that looks 40 years ahead finds nothing
only where there is nothing to be found (`nextOccurrence_error_iff`).
-/
namespace CronSchedule

open Date

/-! ## Matching in another year -/

namespace Pattern

variable {pattern : Pattern} {a b : Date}

theorem nearestWorkdayOf?_eq (h : a.Alike b) (day : Nat) :
    nearestWorkdayOf? a day = nearestWorkdayOf? b day := by
  rcases h.ofYMD?_eq day with ⟨ha, hb⟩ | ⟨x, y, ha, hb, hxy⟩
  · rw [nearestWorkdayOf?, nearestWorkdayOf?, ha, hb]
  · rw [nearestWorkdayOf?, nearestWorkdayOf?, ha, hb]
    exact hxy.nearestWorkday?_eq

/-- Of the same day of another year of the same shape a pattern learns the same. -/
theorem askedAlike_of_alike (h : a.Alike b) : a.AskedAlike b where
  month := h.month
  day := h.day
  weekday := h.weekday_eq
  lastDayOfMonth := h.lastDayOfMonth?_eq
  isLastWeekday := h.isLastWeekday?_eq
  nearestWorkday := nearestWorkdayOf?_eq h

theorem matchesClock_eq {clock other : WallClock} (h : clock.date.Alike other.date)
    (hhour : clock.hour = other.hour) (hminute : clock.minute = other.minute)
    (hsecond : clock.second = other.second) :
    pattern.matchesClock clock = pattern.matchesClock other := by
  rw [matchesClock, matchesClock, matchesDate_congr rfl rfl rfl (askedAlike_of_alike h), h.month,
    hhour, hminute, hsecond]

/-- A pattern that matches in some year matches within 40 years of any other. -/
theorem exists_match_after {clock : WallClock} {start : Int}
    (hmatch : pattern.matchesClock clock = .ok true) (hyear : clock.date.year < lastYear)
    (hfirst : firstYear ≤ start) (hlast : start + 40 < lastYear) :
    ∃ other : WallClock, start < other.date.year ∧ other.date.year ≤ start + 40 ∧
      pattern.matchesClock other = .ok true := by
  obtain ⟨year, hgt, hle, hshape⟩ := exists_sameShape_between start clock.date.year
  obtain ⟨date, rfl, halike⟩ := exists_alike hyear ⟨by omega, by omega⟩ hshape.symm
  let other : WallClock := ⟨date, clock.hour, clock.minute, clock.second, clock.hour_lt,
    clock.minute_lt, clock.second_lt⟩
  have hsame : pattern.matchesClock clock = pattern.matchesClock other :=
    matchesClock_eq halike rfl rfl rfl
  exact ⟨other, hgt, hle, hsame.symm.trans hmatch⟩

end Pattern

/-! ## Zones with one offset -/

namespace Zone

variable {offset seconds : Int} {clock : WallClock}

/-- A zone with one offset shows every wall clock once. -/
theorem shows_fixed : (Zone.mk offset []).Shows seconds clock ↔
    seconds = clock.toSeconds - offset := by
  have hoffset : (Zone.mk offset []).offsetAt seconds = offset := rfl
  rw [Shows, hoffset]
  omega

/-- A wall clock of a year between the first and the last stays within the calendar when it
is moved by less than a day. -/
theorem inCalendar_of_year (hoffset : -86400 < offset ∧ offset < 86400)
    (hfirst : firstYear < clock.date.year) (hlast : clock.date.year < lastYear) :
    inCalendar (clock.toSeconds - offset) = true := by
  have hlo : daysBeforeYear (firstYear + 1) ≤ daysBeforeYear clock.date.year :=
    daysBeforeYear_mono hfirst
  have hhi : daysBeforeYear (clock.date.year + 1) ≤ daysBeforeYear lastYear :=
    daysBeforeYear_mono hlast
  have hfirstYear : daysBeforeYear firstYear + 1 < daysBeforeYear (firstYear + 1) := by decide
  have hlastYear : daysBeforeYear lastYear < daysBeforeYear (lastYear + 1) := by decide
  obtain ⟨hgt, hle⟩ := clock.date.dayNumber_mem_year
  have hhour := clock.hour_lt
  have hminute := clock.minute_lt
  have hsecond := clock.second_lt
  have hday : clock.date.dayNumber - 1 ≤
      (clock.toSeconds - offset) / 86400 + WallClock.epochDay ∧
        (clock.toSeconds - offset) / 86400 + WallClock.epochDay ≤ clock.date.dayNumber + 1 := by
    rw [WallClock.toSeconds]
    omega
  have hdate : ∃ date : Date,
      date.dayNumber = (clock.toSeconds - offset) / 86400 + WallClock.epochDay :=
    exists_dayNumber_eq (by omega) (by omega)
  obtain ⟨date, hdate⟩ := hdate
  rw [inCalendar, WallClock.ofSeconds?, ofDayNumber?_eq_some_iff.mpr hdate]
  rfl

theorem earliest?_fixed (hoffset : -86400 < offset ∧ offset < 86400)
    (hfirst : firstYear < clock.date.year) (hlast : clock.date.year < lastYear) :
    (Zone.mk offset []).earliest? clock = some (.ofSeconds (clock.toSeconds - offset)) := by
  refine earliest?_eq_some_iff.mpr ⟨rfl, ⟨shows_fixed.mpr rfl, ?_⟩, ?_⟩
  · intro other hother
    exact Int.le_of_eq (shows_fixed.mp hother).symm
  · intro other hother
    rw [shows_fixed.mp hother]
    exact inCalendar_of_year hoffset hfirst hlast

end Zone

namespace Schedule

variable {schedule : Schedule} {offset : Int} {start : Instant} {clock other : WallClock}

/-- In a zone with one offset a later wall clock that matches within the horizon is a
candidate. -/
theorem exists_isCandidate (hoffset : -86400 < offset ∧ offset < 86400)
    (hclock : (Zone.mk offset []).wallClock? start = some clock)
    (hmatch : schedule.pattern.matchesClock other = .ok true)
    (hgt : clock.date.year < other.date.year)
    (hle : other.date.year ≤ clock.date.year + schedule.horizon)
    (hlast : other.date.year < lastYear) (inclusive : Bool) :
    ∃ instant, schedule.IsCandidate ⟨offset, []⟩ start inclusive clock other instant := by
  have hlt : clock.toSeconds < other.toSeconds := by
    refine Int.not_le.mp fun hle => ?_
    have := WallClock.year_le_of_toSeconds_le hle
    omega
  have hstart := Zone.shows_fixed.mp (Zone.wallClock?_eq_some_iff.mp hclock)
  have hfirst := clock.date.year_mem.1
  obtain ⟨hwhole, hearliest, hcalendar⟩ :=
    Zone.earliest?_eq_some_iff.mp (Zone.earliest?_fixed hoffset (by omega) hlast)
  refine ⟨_, Int.le_of_lt hlt, fun _ => hlt, hmatch, hle, hwhole, hearliest, hcalendar, .inl ?_⟩
  rw [Instant.before_iff]
  left
  rw [hstart]
  show clock.toSeconds - offset < other.toSeconds - offset
  omega

/-- **Forty years are enough.**  In a zone with one offset, a search with a horizon of at
least 40 years that ends before the last year of the calendar fails only where no wall clock
before that year matches, and there it fails with its horizon. -/
theorem nextOccurrence_error_iff {options : ParseOptions} {expression : String}
    (hparse : parseWith options expression = .ok schedule) (hhorizon : 40 ≤ options.horizon)
    (hoffset : -86400 < offset ∧ offset < 86400)
    (hclock : (Zone.mk offset []).wallClock? start = some clock)
    (hyear : clock.date.year + options.horizon < lastYear) (inclusive : Bool) (error : Error) :
    schedule.nextOccurrence ⟨offset, []⟩ start inclusive = .error error ↔
      error = .exhausted options.horizon ∧
        ∀ other : WallClock, other.date.year < lastYear →
          schedule.pattern.matchesClock other ≠ .ok true := by
  have haligned := aligned_of_parseWith hparse
  have hsame : schedule.horizon = options.horizon := horizon_of_parseWith hparse
  rw [← hsame] at hyear hhorizon ⊢
  constructor
  · intro herror
    obtain ⟨hexhausted, hnone⟩ := not_isCandidate_of_nextOccurrence haligned hclock hyear herror
    refine ⟨hexhausted, fun other hother hmatch => ?_⟩
    obtain ⟨found, hgt, hle, hfound⟩ := Pattern.exists_match_after hmatch hother
      clock.date.year_mem.1 (by omega)
    obtain ⟨instant, hcandidate⟩ := exists_isCandidate hoffset hclock hfound hgt (by omega)
      (by omega) inclusive
    exact hnone found instant hcandidate
  · rintro ⟨rfl, hnone⟩
    cases hresult : schedule.nextOccurrence ⟨offset, []⟩ start inclusive with
    | error e => rw [(not_isCandidate_of_nextOccurrence haligned hclock hyear hresult).1]
    | ok instant =>
      obtain ⟨found, hfound, -⟩ := isCandidate_of_nextOccurrence haligned hclock hresult
      have hle := hfound.year_le
      exact absurd hfound.isMatch (hnone found (by omega))

/-- After the Monday that is a leap day in 2072 the next one comes 40 years later, the year
2100 having none. -/
theorem nextOccurrence_error_iff_leap_monday :
    ∃ schedule clock, parseWith { bothDays := true, horizon := 40 } "0 0 29 2 1" = .ok schedule ∧
      Zone.utc.wallClock? ⟨3224016000, 0⟩ = some clock ∧ clock.date.year + 40 < lastYear ∧
    (∀ error, schedule.nextOccurrence .utc ⟨3224016000, 0⟩ false = .error error ↔
      error = .exhausted 40 ∧ ∀ other : WallClock, other.date.year < lastYear →
        schedule.pattern.matchesClock other ≠ .ok true) ∧
    ∃ other : WallClock, other.date.year = 2112 ∧
      schedule.pattern.matchesClock other = .ok true := by
  let other : WallClock := .midnight ⟨2112, 2, 29, by decide, by decide, by decide⟩
  obtain ⟨schedule, hparse, hmatch⟩ := map_eq_ok_iff.mp
    (show (parseWith { bothDays := true, horizon := 40 } "0 0 29 2 1").map (fun schedule =>
      schedule.pattern.matchesClock other) = .ok (.ok true) by decide +kernel)
  obtain ⟨clock, hclock⟩ := Option.isSome_iff_exists.mp
    (show (Zone.utc.wallClock? ⟨3224016000, 0⟩).isSome = true by decide)
  have hyear : clock.date.year + 40 < lastYear := by
    have hdate : (Zone.utc.wallClock? ⟨3224016000, 0⟩).map (·.date.year) = some 2072 := by decide
    rw [hclock, Option.map_some, Option.some.injEq] at hdate
    rw [hdate]
    decide
  refine ⟨schedule, clock, hparse, hclock, hyear, fun error => ?_, other, rfl, hmatch⟩
  exact nextOccurrence_error_iff hparse (by decide) (by decide) hclock hyear false error

end Schedule
end CronSchedule
