import CronSchedule.Proofs.Calendar.MonthDays
import CronSchedule.Proofs.Schedule.Representation

/-! # What the day fields ask of a date

A day field asks for a date in one of several ways.  The day of month names it, asks for the
last day of its month, or asks for the working day nearest to some day (`MonthDayHolds`).
The day of week names its weekday, either every time, or the time it occurs in the month, or
the last time (`WeekdayHolds`).  Each way is a statement about the dates of the month.

A pattern that parsing builds answers for every date before the last year of the calendar,
and with exactly these (`Schedule.matchesDay_exact`): every question is asked of the table of
its own field, so none fails, and the questions that are left out once one is answered with
yes would not have changed the answer.
-/
namespace CronSchedule

namespace Pattern

/-- Whether the day of month asks for a date. -/
inductive MonthDayHolds (pattern : Pattern) (date : Date) : Prop
  | value (hvalue : pattern.days.carries date.day .plain = true)
  | lastDay (henabled : pattern.days.isEnabled Mark.last.bits = true)
      (hlast : ∀ other, Date.SameMonth other date → other.day ≤ date.day)
  | nearest (day : Nat) (hday : 1 ≤ day ∧ day ≤ 31)
      (hmark : pattern.days.carries day .nearestWeekday = true)
      (hnearest : nearestWorkdayOf? date day = some date.day)

/-- Whether the day of week asks for a date. -/
inductive WeekdayHolds (pattern : Pattern) (date : Date) : Prop
  | value (hvalue : pattern.weekdays.carries date.weekday .plain = true)
  | nth (k : Fin 5) (hmark : pattern.weekdays.carries date.weekday (.nth k) = true)
      (hcount : date.earlier.ncard = k)
  | last (hmark : pattern.weekdays.carries date.weekday .last = true)
      (hlast : ∀ later, Date.SameMonth later date → date.day < later.day →
        later.weekday ≠ date.weekday)

/-- Whether every day of every month matches plainly. -/
def CoversDays (pattern : Pattern) : Prop :=
  ∀ day, 1 ≤ day → day ≤ 31 → pattern.days.carries day .plain = true

/-- Whether every weekday matches plainly. -/
def CoversWeekdays (pattern : Pattern) : Prop :=
  ∀ weekday, weekday ≤ 6 → pattern.weekdays.carries weekday .plain = true

variable {pattern : Pattern} {date : Date}

/-! ## The day of month -/

theorem matchesLastDay_eq_ok (pattern : Pattern) (hyear : date.year < lastYear) :
    pattern.matchesLastDay date = .ok (pattern.days.isEnabled Mark.last.bits &&
      date.day == daysInMonth date.year date.month) := by
  rw [matchesLastDay, Date.lastDayOfMonth?_eq hyear]
  split
  · rename_i henabled
    rw [henabled, Bool.true_and]
  · rename_i hdisabled
    rw [Bool.eq_false_of_not_eq_true hdisabled, Bool.false_and]

/-- The days close to a date are all that have to be looked at for a working day. -/
theorem any_nearDays_iff : ((nearDays date.day).any fun day =>
      pattern.days.carries day .nearestWeekday &&
        nearestWorkdayOf? date day == some date.day) = true ↔
    ∃ day, (1 ≤ day ∧ day ≤ 31) ∧ pattern.days.carries day .nearestWeekday = true ∧
      nearestWorkdayOf? date day = some date.day := by
  simp only [List.any_eq_true, Bool.and_eq_true, beq_iff_eq]
  constructor
  · rintro ⟨day, hmem, hmark, hnearest⟩
    exact ⟨day, mem_nearDays hmem, hmark, hnearest⟩
  · rintro ⟨day, hday, hmark, hnearest⟩
    exact ⟨day, mem_nearDays_of_nearest hnearest hday.2, hmark, hnearest⟩

theorem matchesDayOfMonth_exact (h : pattern.Aligned) (hyear : date.year < lastYear) :
    ∃ b, pattern.matchesDayOfMonth date = .ok b ∧
      (b = true ↔ pattern.MonthDayHolds date) := by
  rw [matchesDayOfMonth, h.has_day, pattern.matchesLastDay_eq_ok hyear,
    matchesNearest_eq_ok h fun _ hmem => mem_nearDays hmem, orM_ok, orM_ok]
  refine ⟨_, rfl, ?_⟩
  rw [Bool.or_eq_true, Bool.or_eq_true, Bool.and_eq_true, beq_iff_eq, any_nearDays_iff,
    Date.day_eq_daysInMonth_iff]
  constructor
  · rintro (hvalue | ⟨henabled, hlast⟩ | ⟨day, hmem, hmark, hnearest⟩)
    · exact .value hvalue
    · exact .lastDay henabled hlast
    · exact .nearest day hmem hmark hnearest
  · intro hholds
    cases hholds with
    | value hvalue => exact .inl hvalue
    | lastDay henabled hlast => exact .inr (.inl ⟨henabled, hlast⟩)
    | nearest day hmem hmark hnearest => exact .inr (.inr ⟨day, hmem, hmark, hnearest⟩)

/-! ## The day of week -/

theorem matchesDayOfWeek_exact (h : pattern.Aligned) (hyear : date.year < lastYear) :
    ∃ b, pattern.matchesDayOfWeek date = .ok b ∧
      (b = true ↔ pattern.WeekdayHolds date) := by
  have hweekday : date.weekday ≤ 7 := Nat.le_of_lt date.weekday_lt
  have hagain : isLastWeekday date =
      .ok (decide (daysInMonth date.year date.month < date.day + 7)) := by
    rw [isLastWeekday, Date.isLastWeekday?_eq hyear]
  have hlast : decide (daysInMonth date.year date.month < date.day + 7) = true ↔
      ∀ later, Date.SameMonth later date → date.day < later.day →
        later.weekday ≠ date.weekday := by
    rw [← Date.isLastWeekday?_eq_some_true_iff hyear, Date.isLastWeekday?_eq hyear,
      Option.some.injEq]
  have hall : ∀ k : Fin 5, k ∈ ([0, 1, 2, 3, 4] : List (Fin 5)) := by decide
  simp only [matchesDayOfWeek]
  rw [h.has_weekday hweekday (Field.supports_plain _), matchesNth_eq_ok h hweekday,
    h.has_weekday hweekday (show Field.dayOfWeek.supports Mark.last.bits = true by decide), hagain,
    andM_ok, orM_ok, orM_ok]
  refine ⟨_, rfl, ?_⟩
  simp only [Bool.or_eq_true, Bool.and_eq_true, List.any_eq_true, beq_iff_eq, hlast]
  constructor
  · rintro (hvalue | ⟨k, -, hmark, hrank⟩ | ⟨hmark, hlast⟩)
    · exact .value hvalue
    · exact .nth k hmark (date.ncard_earlier_eq.trans hrank)
    · exact .last hmark hlast
  · intro hholds
    cases hholds with
    | value hvalue => exact .inl hvalue
    | nth k hmark hcount =>
      exact .inr (.inl ⟨k, hall k, hmark, date.ncard_earlier_eq.symm.trans hcount⟩)
    | last hmark hlast => exact .inr (.inr ⟨hmark, hlast⟩)

/-! ## The two fields together -/

/-- The answer of a parsed pattern, from those of its two fields. -/
theorem matchesDate_exact (h : pattern.Aligned) (hyear : date.year < lastYear) :
    ∃ day weekday, pattern.matchesDate date = .ok (pattern.dayRule.holds day weekday) ∧
      (day = true ↔ pattern.MonthDayHolds date) ∧
      (weekday = true ↔ pattern.WeekdayHolds date) := by
  obtain ⟨day, hday, hmonthDay⟩ := matchesDayOfMonth_exact h hyear
  obtain ⟨weekday, hweekday, hholds⟩ := matchesDayOfWeek_exact h hyear
  refine ⟨day, weekday, ?_, hmonthDay, hholds⟩
  rw [matchesDate, hday, hweekday]
  rfl

end Pattern

namespace Schedule

open Pattern

variable {options : ParseOptions} {expression : String} {schedule : Schedule}

/-- **Which days match.**  Before the last year of the calendar, a parsed pattern has an
answer for every date.  A day field that covers its whole domain plainly leaves the answer to
the other one.  Where both are restricted, one of them has to ask for the date, or both if the
options say so. -/
theorem matchesDay_exact (hparse : parseWith options expression = .ok schedule) (date : Date)
    (hyear : date.year < lastYear) :
    ∃ b, schedule.pattern.matchesDay date.year date.month date.day = .ok b ∧
      (schedule.pattern.CoversDays → schedule.pattern.CoversWeekdays → b = true) ∧
      (¬ schedule.pattern.CoversDays → schedule.pattern.CoversWeekdays →
        (b = true ↔ schedule.pattern.MonthDayHolds date)) ∧
      (schedule.pattern.CoversDays → ¬ schedule.pattern.CoversWeekdays →
        (b = true ↔ schedule.pattern.WeekdayHolds date)) ∧
      (¬ schedule.pattern.CoversDays → ¬ schedule.pattern.CoversWeekdays →
        (b = true ↔ if options.bothDays
          then schedule.pattern.MonthDayHolds date ∧ schedule.pattern.WeekdayHolds date
          else schedule.pattern.MonthDayHolds date ∨ schedule.pattern.WeekdayHolds date)) := by
  obtain ⟨pattern, hpattern, rfl⟩ := map_eq_ok_iff.mp hparse
  have hboth : pattern.bothDays = options.bothDays := bothDays_of_parseWith hparse
  have hrepresents := represents_of_parse hpattern
  have hdays : pattern.days.isFull = true ↔ pattern.CoversDays := hrepresents.fullDays
  have hweekdays : pattern.weekdays.isFull = true ↔ pattern.CoversWeekdays :=
    hrepresents.fullWeekdays
  obtain ⟨day, weekday, hmatches, hday, hweekday⟩ :=
    matchesDate_exact (aligned_of_parse hpattern) hyear
  refine ⟨pattern.dayRule.holds day weekday, ?_, ?_, ?_, ?_, ?_⟩
  · rw [matchesDay, Date.ofYMD?_eq_some_iff.mpr ⟨rfl, rfl, rfl⟩]
    exact hmatches
  · intro hd hw
    rw [Pattern.dayRule, hdays.mpr hd, hweekdays.mpr hw]
    rfl
  · intro hd hw
    rw [Pattern.dayRule, Bool.eq_false_of_not_eq_true (hd ∘ hdays.mp), hweekdays.mpr hw]
    exact hday
  · intro hd hw
    rw [Pattern.dayRule, hdays.mpr hd, Bool.eq_false_of_not_eq_true (hw ∘ hweekdays.mp)]
    exact hweekday
  · intro hd hw
    rw [Pattern.dayRule, Bool.eq_false_of_not_eq_true (hd ∘ hdays.mp),
      Bool.eq_false_of_not_eq_true (hw ∘ hweekdays.mp), hboth]
    cases options.bothDays with
    | true => exact Bool.and_eq_true_iff.trans (and_congr hday hweekday)
    | false => exact Bool.or_eq_true_iff.trans (or_congr hday hweekday)

/-- The 14th of June 2024 is a Friday, the last working day before the 15th, and the second
Friday of the month. -/
theorem matchesDay_exact_second_friday :
    ∃ schedule date, parseWith { bothDays := true } "0 0 L,15W * MON,FRI#2" = .ok schedule ∧
      Date.ofYMD? 2024 6 14 = some date ∧ date.year < lastYear ∧
      ∃ b, schedule.pattern.matchesDay date.year date.month date.day = .ok b ∧
        ¬ schedule.pattern.CoversDays ∧ ¬ schedule.pattern.CoversWeekdays ∧
        (b = true ↔ schedule.pattern.MonthDayHolds date ∧ schedule.pattern.WeekdayHolds date) := by
  obtain ⟨schedule, hparse, hmarks⟩ := map_eq_ok_iff.mp
    (show (parseWith { bothDays := true } "0 0 L,15W * MON,FRI#2").map (fun schedule =>
      (schedule.pattern.days.carries 1 .plain, schedule.pattern.weekdays.carries 0 .plain)) =
        .ok (false, false) by decide)
  obtain ⟨hday, hweekday⟩ := Prod.mk.inj hmarks
  let date : Date := ⟨2024, 6, 14, by decide, by decide, by decide⟩
  obtain ⟨b, hmatches, -, -, -, hboth⟩ := matchesDay_exact hparse date (by decide)
  have hdays : ¬ schedule.pattern.CoversDays := by
    intro hcovers
    exact Bool.false_ne_true (hday.symm.trans (hcovers 1 (by decide) (by decide)))
  have hweekdays : ¬ schedule.pattern.CoversWeekdays := by
    intro hcovers
    exact Bool.false_ne_true (hweekday.symm.trans (hcovers 0 (by decide)))
  exact ⟨schedule, date, hparse, rfl, by decide, b, hmatches, hdays, hweekdays,
    hboth hdays hweekdays⟩

end Schedule
end CronSchedule
