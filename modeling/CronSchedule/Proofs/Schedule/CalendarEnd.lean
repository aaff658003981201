import CronSchedule.Proofs.Schedule.DayMeaning
import CronSchedule.Schedule.Search

/-! # Matching up to the end of the calendar

Whether an instant matches has an answer for every schedule that was parsed, with two
exceptions, both in the last month of the calendar.  The last day of a month and the last of a
weekday are found by looking at dates of the next month, and this month has none.  So the
answer is missing where it hangs on one of the two: where the time of day matches and the date
is asked for neither by its number nor as a weekday of some other kind
(`Pattern.NeedsLastDay`, `Pattern.NeedsLastWeekday`).

Each question gets the condition under which it fails, from the single tables up
(`matchesDayOfMonth_eq_error_iff`, `matchesDayOfWeek_eq_error_iff`, `matchesClock_eq_error_iff`).
-/
namespace CronSchedule

namespace Date

variable {date : Date}

/-- Whether the calendar ends with the month of a date. -/
structure InFinalMonth (date : Date) : Prop where
  year : date.year = lastYear
  month : date.month = 12

theorem nextMonth?_eq_none_iff : date.nextMonth? = none ↔ date.InFinalMonth := by
  have hmonth := date.month_mem
  have hyear := date.year_mem
  unfold nextMonth?
  split
  · exact iff_of_false (Option.some_ne_none _) fun h => by have := h.month; omega
  · split
    · exact iff_of_false (Option.some_ne_none _) fun h => by have := h.year; omega
    · exact iff_of_true rfl ⟨by omega, by omega⟩

theorem lastDayOfMonth?_eq_none_iff : date.lastDayOfMonth? = none ↔ date.InFinalMonth := by
  rw [lastDayOfMonth?, Option.map_eq_none_iff, nextMonth?_eq_none_iff]

/-- Whether the weekday comes again cannot be told in the last week of the calendar. -/
theorem isLastWeekday?_eq_none_iff :
    date.isLastWeekday? = none ↔ date.InFinalMonth ∧ 24 < date.day := by
  unfold isLastWeekday?
  split
  · rename_i hagain
    refine iff_of_false nofun fun ⟨hfinal, hday⟩ => ?_
    have := daysInMonth_le date.year date.month
    omega
  · rename_i hlast
    rw [Option.map_eq_none_iff, nextMonth?_eq_none_iff]
    refine (and_iff_left_of_imp fun hfinal => ?_).symm
    have hlength : daysInMonth date.year date.month = 31 := by rw [hfinal.month]; rfl
    omega

end Date

namespace Pattern

/-- Whether the hour, the minute and the second of a wall clock match. -/
structure MatchesTime (pattern : Pattern) (clock : WallClock) : Prop where
  second : pattern.seconds.carries clock.second .plain = true
  minute : pattern.minutes.carries clock.minute .plain = true
  hour : pattern.hours.carries clock.hour .plain = true

/-- Whether a date is not asked for by its number, but may be as the last day of the month. -/
structure NeedsLastDay (pattern : Pattern) (date : Date) : Prop where
  not_value : pattern.days.carries date.day .plain = false
  enabled : pattern.days.isEnabled Mark.last.bits = true

/-- Whether the weekday of a date is asked for neither plainly nor by how often it has come in
the month, but may be as the last one. -/
structure NeedsLastWeekday (pattern : Pattern) (date : Date) : Prop where
  not_value : pattern.weekdays.carries date.weekday .plain = false
  not_nth : ∀ k : Fin 5, pattern.weekdays.carries date.weekday (.nth k) = true →
    date.earlier.ncard ≠ k
  mark : pattern.weekdays.carries date.weekday .last = true

variable {pattern : Pattern} {date : Date} {clock : WallClock} {error : Error}

/-! ## The two day fields -/

theorem matchesLastDay_eq_error_iff : pattern.matchesLastDay date = .error error ↔
    (date.InFinalMonth ∧ pattern.days.isEnabled Mark.last.bits = true) ∧ error = .invalidDate := by
  rw [← Date.lastDayOfMonth?_eq_none_iff]
  unfold matchesLastDay
  split
  · rename_i henabled
    cases date.lastDayOfMonth? with
    | some last => exact iff_of_false nofun nofun
    | none => simp [henabled, eq_comm]
  · rename_i hdisabled
    exact iff_of_false nofun fun h => hdisabled h.1.2

theorem isLastWeekday_eq_error_iff : isLastWeekday date = .error error ↔
    (date.InFinalMonth ∧ 24 < date.day) ∧ error = .calendarOverflow := by
  rw [← Date.isLastWeekday?_eq_none_iff]
  unfold isLastWeekday
  cases date.isLastWeekday? with
  | some last => exact iff_of_false nofun nofun
  | none => simp [eq_comm]

theorem matchesDayOfMonth_eq_error_iff (h : pattern.Aligned) :
    pattern.matchesDayOfMonth date = .error error ↔
      (date.InFinalMonth ∧ pattern.NeedsLastDay date) ∧ error = .invalidDate := by
  rw [matchesDayOfMonth, h.has_day, orM_eq_error_iff, orM_eq_error_iff,
    matchesLastDay_eq_error_iff, matchesNearest_eq_ok h fun _ => mem_nearDays]
  simp only [reduceCtorEq, false_or, Except.ok.injEq, and_false, or_false]
  constructor
  · rintro ⟨hnot, ⟨hfinal, henabled⟩, herror⟩
    exact ⟨⟨hfinal, hnot, henabled⟩, herror⟩
  · rintro ⟨⟨hfinal, hneeds⟩, herror⟩
    exact ⟨hneeds.not_value, ⟨hfinal, hneeds.enabled⟩, herror⟩

theorem matchesDayOfWeek_eq_error_iff (h : pattern.Aligned) :
    pattern.matchesDayOfWeek date = .error error ↔
      (date.InFinalMonth ∧ 24 < date.day ∧ pattern.NeedsLastWeekday date) ∧
        error = .calendarOverflow := by
  have hweekday : date.weekday ≤ 7 := Nat.le_of_lt date.weekday_lt
  have hnth : (List.any [0, 1, 2, 3, 4] fun k : Fin 5 =>
        pattern.weekdays.carries date.weekday (.nth k) && date.weekdayRank == k) = false ↔
      ∀ k : Fin 5, pattern.weekdays.carries date.weekday (.nth k) = true →
        date.earlier.ncard ≠ k := by
    have hall : ∀ k : Fin 5, k ∈ ([0, 1, 2, 3, 4] : List (Fin 5)) := by decide
    rw [date.ncard_earlier_eq, List.any_eq_false]
    refine ⟨fun hnone k hmark hrank => hnone k (hall k) ?_, fun hnone k _ hboth => ?_⟩
    · rw [hmark, hrank, beq_self_eq_true]
      rfl
    · rw [Bool.and_eq_true, beq_iff_eq] at hboth
      exact hnone k hboth.1 hboth.2
  simp only [matchesDayOfWeek]
  rw [h.has_weekday hweekday (Field.supports_plain _), matchesNth_eq_ok h hweekday,
    h.has_weekday hweekday (show Field.dayOfWeek.supports Mark.last.bits = true by decide),
    orM_eq_error_iff, orM_eq_error_iff, andM_eq_error_iff,
    isLastWeekday_eq_error_iff]
  simp only [reduceCtorEq, false_or, Except.ok.injEq, hnth]
  constructor
  · rintro ⟨hnot, hnoneOfNth, hmark, ⟨hfinal, hday⟩, herror⟩
    exact ⟨⟨hfinal, hday, hnot, hnoneOfNth, hmark⟩, herror⟩
  · rintro ⟨⟨hfinal, hday, hneeds⟩, herror⟩
    exact ⟨hneeds.not_value, hneeds.not_nth, hneeds.mark, ⟨hfinal, hday⟩, herror⟩

/-! ## The whole clock -/

/-- What keeps a date from having an answer, the day of month being asked first. -/
theorem matchesDate_eq_error_iff (h : pattern.Aligned) :
    pattern.matchesDate date = .error error ↔ date.InFinalMonth ∧
      (pattern.NeedsLastDay date ∧ error = .invalidDate ∨
        ¬ pattern.NeedsLastDay date ∧ (24 < date.day ∧ pattern.NeedsLastWeekday date) ∧
          error = .calendarOverflow) := by
  have hanswered : (∃ day, pattern.matchesDayOfMonth date = .ok day) ↔
      ¬ (date.InFinalMonth ∧ pattern.NeedsLastDay date) := by
    rw [exists_ok_iff]
    constructor
    · intro hnone hneeds
      exact hnone _ ((matchesDayOfMonth_eq_error_iff h).mpr ⟨hneeds, rfl⟩)
    · intro hnot e herror
      exact hnot ((matchesDayOfMonth_eq_error_iff h).mp herror).1
  have hpure : ∀ day weekday,
      (pure (pattern.dayRule.holds day weekday) : Except Error Bool) ≠ .error error := nofun
  unfold matchesDate
  simp only [bind_eq_error_iff, hpure, and_false, exists_false, or_false, exists_and_right,
    matchesDayOfMonth_eq_error_iff h, matchesDayOfWeek_eq_error_iff h, hanswered]
  constructor
  · rintro (⟨⟨hfinal, hneeds⟩, herror⟩ | ⟨hnot, ⟨hfinal, hneeds⟩, herror⟩)
    · exact ⟨hfinal, .inl ⟨hneeds, herror⟩⟩
    · exact ⟨hfinal, .inr ⟨fun hday => hnot ⟨hfinal, hday⟩, hneeds, herror⟩⟩
  · rintro ⟨hfinal, ⟨hneeds, herror⟩ | ⟨hnot, hneeds, herror⟩⟩
    · exact .inl ⟨⟨hfinal, hneeds⟩, herror⟩
    · exact .inr ⟨fun hday => hnot hday.2, ⟨hfinal, hneeds⟩, herror⟩

/-- A wall clock is asked for its date once its time of day matches, and for its month only
after that. -/
theorem matchesClock_eq_error_iff (h : pattern.Aligned) :
    pattern.matchesClock clock = .error error ↔
      pattern.MatchesTime clock ∧ pattern.matchesDate clock.date = .error error := by
  have hsecond : pattern.matchesSecond clock.second =
      .ok (pattern.seconds.carries clock.second .plain) :=
    h.hasUpTo_max .second rfl (Nat.le_of_lt_succ clock.second_lt)
  have hminute : pattern.matchesMinute clock.minute =
      .ok (pattern.minutes.carries clock.minute .plain) :=
    h.hasUpTo_max .minute rfl (Nat.le_of_lt_succ clock.minute_lt)
  have hhour : pattern.matchesHour clock.hour =
      .ok (pattern.hours.carries clock.hour .plain) :=
    h.hasUpTo_max .hour rfl (Nat.le_of_lt_succ clock.hour_lt)
  have hmonth : pattern.matchesMonth clock.date.month ≠ .error error := by
    obtain ⟨b, hb⟩ := exists_matchesMonth h clock.date
    rw [hb]
    exact nofun
  rw [matchesClock, hsecond, hminute, hhour]
  simp only [andM_eq_error_iff, reduceCtorEq, false_or, Except.ok.injEq, hmonth, and_false,
    or_false]
  constructor
  · rintro ⟨hsecond, hminute, hhour, hdate⟩
    exact ⟨⟨hsecond, hminute, hhour⟩, hdate⟩
  · rintro ⟨htime, hdate⟩
    exact ⟨htime.second, htime.minute, htime.hour, hdate⟩

end Pattern

namespace Schedule

variable {options : ParseOptions} {expression : String} {schedule : Schedule} {zone : Zone}
  {instant : Instant} {clock : WallClock}

/-- **When matching has an answer.**  Whether an instant with a wall clock matches a parsed
schedule has an answer, unless the time of day matches and it hangs on the last day of the last
month of the calendar, or in the last week of this month on the last of a weekday.  The first
fails as a date that does not exist, the second as one beyond the calendar. -/
theorem isMatch_answers_iff (hparse : parseWith options expression = .ok schedule)
    (hclock : zone.wallClock? instant = some clock) :
    ((∃ b, schedule.isMatch zone instant = .ok b) ↔
      ¬ (schedule.pattern.MatchesTime clock ∧ clock.date.InFinalMonth ∧
        (schedule.pattern.NeedsLastDay clock.date ∨
          24 < clock.date.day ∧ schedule.pattern.NeedsLastWeekday clock.date))) ∧
    ∀ error, schedule.isMatch zone instant = .error error ↔
      schedule.pattern.MatchesTime clock ∧ clock.date.InFinalMonth ∧
        (schedule.pattern.NeedsLastDay clock.date ∧ error = .invalidDate ∨
          ¬ schedule.pattern.NeedsLastDay clock.date ∧
            (24 < clock.date.day ∧ schedule.pattern.NeedsLastWeekday clock.date) ∧
              error = .calendarOverflow) := by
  have haligned := aligned_of_parseWith hparse
  have hmatch : schedule.isMatch zone instant = schedule.pattern.matchesClock clock := by
    rw [isMatch, hclock]
  have herror : ∀ error, schedule.isMatch zone instant = .error error ↔ _ := fun error => by
    rw [hmatch, Pattern.matchesClock_eq_error_iff haligned,
      Pattern.matchesDate_eq_error_iff haligned]
  refine ⟨?_, herror⟩
  rw [exists_ok_iff]
  constructor
  · rintro hnone ⟨htime, hfinal, hneeds⟩
    by_cases hday : schedule.pattern.NeedsLastDay clock.date
    · exact hnone _ ((herror _).mpr ⟨htime, hfinal, .inl ⟨hday, rfl⟩⟩)
    · exact hnone _ ((herror _).mpr
        ⟨htime, hfinal, .inr ⟨hday, hneeds.resolve_left hday, rfl⟩⟩)
  · intro hnot e he
    obtain ⟨htime, hfinal, ⟨hday, -⟩ | ⟨-, hweekday, -⟩⟩ := (herror e).mp he
    · exact hnot ⟨htime, hfinal, .inl hday⟩
    · exact hnot ⟨htime, hfinal, .inr hweekday⟩

/-- The last instant of the calendar that starts a minute, on a Monday: asked for by its number
and as a Monday, it has its answer although both tables also ask for a last one. -/
theorem isMatch_answers_iff_on_last_day :
    ∃ schedule clock, parseWith {} "* * 31,L * 1,1L" = .ok schedule ∧
      Zone.utc.wallClock? ⟨8210266876740, 0⟩ = some clock ∧ clock.date.InFinalMonth ∧
      schedule.pattern.days.isEnabled Mark.last.bits = true ∧
      schedule.pattern.weekdays.carries clock.date.weekday .last = true ∧
      ∃ b, schedule.isMatch .utc ⟨8210266876740, 0⟩ = .ok b := by
  obtain ⟨clock, hclock⟩ := Option.isSome_iff_exists.mp
    (show (Zone.utc.wallClock? ⟨8210266876740, 0⟩).isSome = true by decide)
  have hdate : (Zone.utc.wallClock? ⟨8210266876740, 0⟩).map
      (fun clock => (clock.date.year, clock.date.month, clock.date.day, clock.date.weekday)) =
        some (lastYear, 12, 31, 1) := by decide
  rw [hclock, Option.map_some, Option.some.injEq, Prod.mk.injEq, Prod.mk.injEq,
    Prod.mk.injEq] at hdate
  obtain ⟨hyear, hmonth, hday, hweekday⟩ := hdate
  obtain ⟨schedule, hparse, hmarks⟩ := map_eq_ok_iff.mp
    (show (parseWith {} "* * 31,L * 1,1L").map (fun schedule =>
      (schedule.pattern.days.carries 31 .plain, schedule.pattern.days.isEnabled Mark.last.bits,
        schedule.pattern.weekdays.carries 1 .plain,
          schedule.pattern.weekdays.carries 1 .last)) = .ok (true, true, true, true) by decide)
  obtain ⟨hthirtyFirst, henabled, hmonday, hlast⟩ : _ ∧ _ ∧ _ ∧ _ := by
    simpa only [Prod.mk.injEq] using hmarks
  refine ⟨schedule, clock, hparse, hclock, ⟨hyear, hmonth⟩, henabled, ?_,
    (isMatch_answers_iff hparse hclock).1.mpr ?_⟩
  · rw [hweekday]
    exact hlast
  · rintro ⟨-, -, hneeds | ⟨-, hneeds⟩⟩
    · have hnot := hneeds.not_value
      rw [hday, hthirtyFirst] at hnot
      cases hnot
    · have hnot := hneeds.not_value
      rw [hweekday, hmonday] at hnot
      cases hnot

/-- Where the same day is asked for as the last one only, or as the last Monday only, there is
no answer. -/
theorem isMatch_without_answer :
    (∃ schedule, parseWith {} "* * L * *" = .ok schedule ∧
      (Zone.utc.wallClock? ⟨8210266876740, 0⟩).isSome = true ∧
      schedule.isMatch .utc ⟨8210266876740, 0⟩ = .error .invalidDate) ∧
    ∃ schedule, parseWith {} "* * * * 1L" = .ok schedule ∧
      (Zone.utc.wallClock? ⟨8210266876740, 0⟩).isSome = true ∧
      schedule.isMatch .utc ⟨8210266876740, 0⟩ = .error .calendarOverflow := by
  obtain ⟨lastDay, hlastDay, hinvalid⟩ := map_eq_ok_iff.mp
    (show (parseWith {} "* * L * *").map (·.isMatch .utc ⟨8210266876740, 0⟩) =
      .ok (.error .invalidDate) by decide +kernel)
  obtain ⟨lastMonday, hlastMonday, hoverflow⟩ := map_eq_ok_iff.mp
    (show (parseWith {} "* * * * 1L").map (·.isMatch .utc ⟨8210266876740, 0⟩) =
      .ok (.error .calendarOverflow) by decide +kernel)
  exact ⟨⟨lastDay, hlastDay, by decide, hinvalid⟩, lastMonday, hlastMonday, by decide, hoverflow⟩

end Schedule
end CronSchedule
