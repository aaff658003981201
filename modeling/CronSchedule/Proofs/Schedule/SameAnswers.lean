import CronSchedule.Proofs.Schedule.Representation
import CronSchedule.Proofs.Schedule.SameQuestions
import CronSchedule.Proofs.Schedule.Termination

/-! # What the answers of a schedule depend on

Matching and searching read the tables of a pattern and how its days combine, not its text.
Each question reads its own tables only, and the two day fields are read through the answers
that they give together for a date.  So two patterns with the same other tables and the same
answer for every date answer alike (`Pattern.AnswersAlike`), and so do two schedules that
also look as far ahead (`Schedule.AnswersAlike`): whether an instant matches, what a search
finds and what is listed are the same for both, failures included.

For the searches this needs no induction of its own.  Within enough passes the loops give the
answer of a search, and one pass is the same for both schedules.
-/
namespace CronSchedule

namespace Pattern

variable {a b : Pattern} {clock : WallClock}

/-! ## Patterns -/

/-- Whether two patterns have the same tables apart from the two of the days, and the same
answer for every date. -/
structure AnswersAlike (a b : Pattern) : Prop where
  seconds : a.seconds = b.seconds
  minutes : a.minutes = b.minutes
  hours : a.hours = b.hours
  months : a.months = b.months
  dates : ∀ date, a.matchesDate date = b.matchesDate date

namespace AnswersAlike

theorem matchesMonth_eq (h : a.AnswersAlike b) (month : Nat) :
    a.matchesMonth month = b.matchesMonth month := by
  rw [matchesMonth, matchesMonth, h.months]

theorem matchesClock_eq (h : a.AnswersAlike b) : a.matchesClock clock = b.matchesClock clock := by
  have hsecond : a.matchesSecond clock.second = b.matchesSecond clock.second := by
    rw [matchesSecond, matchesSecond, h.seconds]
  have hminute : a.matchesMinute clock.minute = b.matchesMinute clock.minute := by
    rw [matchesMinute, matchesMinute, h.minutes]
  have hhour : a.matchesHour clock.hour = b.matchesHour clock.hour := by
    rw [matchesHour, matchesHour, h.hours]
  rw [matchesClock, matchesClock, hsecond, hminute, hhour, h.dates, h.matchesMonth_eq]

/-- The time of day is looked for in the tables of its three parts. -/
theorem passHour_eq (h : a.AnswersAlike b) : a.passHour clock = b.passHour clock := by
  have hsecond : a.nextSecond = b.nextSecond := by unfold nextSecond; rw [h.seconds]
  have hminute : a.nextMinute = b.nextMinute := by unfold nextMinute; rw [h.minutes]
  have hhour : a.nextHour = b.nextHour := by unfold nextHour; rw [h.hours]
  have hrest : a.passSecond = b.passSecond := by unfold passSecond; rw [hsecond]
  rw [passHour, passHour, passMinute, passMinute, hhour, hminute, hrest]

theorem pass_eq (h : a.AnswersAlike b) : a.pass clock = b.pass clock := by
  rw [pass, pass, h.matchesMonth_eq, h.dates, h.passHour_eq]

end AnswersAlike

/-- The same tables give the same answers where the days combine alike. -/
theorem answersAlike_of_tables (htables : ∀ field, a.table field = b.table field)
    (hboth : a.bothDays = b.bothDays) : a.AnswersAlike b := by
  have hdays : a.days = b.days := htables .dayOfMonth
  have hweekdays : a.weekdays = b.weekdays := htables .dayOfWeek
  refine ⟨htables .second, htables .minute, htables .hour, htables .month, fun date => ?_⟩
  exact matchesDate_congr hdays hweekdays (dayRule_eq_of_tables htables hboth)
    date.askedAlike_refl

end Pattern

/-! ## Schedules -/

/-- Whether two schedules have patterns that answer alike, and look as far ahead. -/
structure Schedule.AnswersAlike (schedule again : Schedule) : Prop where
  pattern : schedule.pattern.AnswersAlike again.pattern
  horizon : schedule.horizon = again.horizon

namespace Schedule.AnswersAlike

variable {schedule again : Schedule} {zone : Zone}

theorem isMatch_eq (h : schedule.AnswersAlike again) (zone : Zone) (instant : Instant) :
    schedule.isMatch zone instant = again.isMatch zone instant := by
  unfold isMatch
  split
  · exact h.pattern.matchesClock_eq
  · rfl

theorem walkTurn_eq (h : schedule.AnswersAlike again) : schedule.walkTurn = again.walkTurn := by
  funext limit clock
  rw [walkTurn, walkTurn, h.pattern.pass_eq, h.horizon]

/-- What a search finds is what its loops come to within enough passes, and these make the
same passes for both schedules. -/
theorem nextOccurrence_eq (h : schedule.AnswersAlike again) (zone : Zone) (start : Instant)
    (inclusive : Bool) :
    schedule.nextOccurrence zone start inclusive = again.nextOccurrence zone start inclusive := by
  have hsearch : ∀ passes, schedule.searchWithin passes zone start inclusive =
      again.searchWithin passes zone start inclusive := by
    intro passes
    have hturn : ∀ accepts limit, schedule.searchTurn zone accepts limit passes =
        again.searchTurn zone accepts limit passes := by
      intro accepts limit
      funext clock
      rw [searchTurn, searchTurn, h.walkTurn_eq]
    simp only [searchWithin, hturn, h.horizon]
  have hends : schedule.searchWithin _ zone start inclusive = _ :=
    searchWithin_eq_some (Nat.lt_succ_self ((schedule.horizon + 1) * 366 * 86400))
  have hends' : again.searchWithin _ zone start inclusive = _ :=
    searchWithin_eq_some (Nat.lt_succ_self ((again.horizon + 1) * 366 * 86400))
  rw [hsearch, h.horizon, hends', Option.some.injEq] at hends
  exact hends.symm

/-- A run asks one search after the other, each from where the one before it has ended. -/
theorem results_eq (h : schedule.AnswersAlike again) (zone : Zone) (start : Instant)
    (inclusive : Bool) (calls : Nat) :
    (schedule.occurrences zone start inclusive).results calls =
      (again.occurrences zone start inclusive).results calls := by
  rw [occurrences_eq, occurrences_eq]
  induction calls generalizing start inclusive with
  | zero => rfl
  | succ calls ih =>
    have hnext := h.nextOccurrence_eq zone start inclusive
    rw [Occurrences.results, Occurrences.results]
    cases hfound : schedule.nextOccurrence zone start inclusive with
    | ok found =>
      rw [Occurrences.next_eq_of_ok hfound, Occurrences.next_eq_of_ok (hnext ▸ hfound), ih]
    | error error =>
      rw [Occurrences.next_eq_of_error hfound, Occurrences.next_eq_of_error (hnext ▸ hfound),
        Occurrences.results_of_finished rfl, Occurrences.results_of_finished rfl]

end Schedule.AnswersAlike
end CronSchedule
