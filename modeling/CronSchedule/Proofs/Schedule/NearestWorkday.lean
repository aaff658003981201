import CronSchedule.Proofs.Calendar.Workdays
import CronSchedule.Proofs.Explanation.Readings
import CronSchedule.Proofs.Schedule.DayMeaning

/-! # The working day that a pattern asks for

A day of month that holds nothing but a number with a `W` marks that one day, in that one way
(`carries_of_nearest_entry`).  Where the weekdays are left open, such a pattern matches the
working day nearest to the day and no other date (`matchesDay_nearest_workday`): one date in
every month that has the day, none in a shorter one.
-/
namespace CronSchedule

open Text

namespace MarkTable

variable {token number : List Char} {table : MarkTable} {day : Nat}

/-- A lone number with a `W` is all that its table holds. -/
theorem carries_of_nearest_entry (h : MarkTable.parse .dayOfMonth token = .ok table)
    (hentry : upper token = number ++ ['W']) (hday : digits? number = some day) :
    (∀ value how, table.carries value how = true ↔ value = day ∧ how = .nearestWeekday) ∧
      ∀ how : Mark, table.isEnabled how.bits = false := by
  have hlone : ¬ IsLone token := by
    rintro (rfl | rfl)
    · exact absurd (hentry ▸ List.mem_append_right number List.mem_cons_self : 'W' ∈ upper ['*'])
        (by decide)
    · exact absurd (hentry ▸ List.mem_append_right number List.mem_cons_self : 'W' ∈ upper ['?'])
        (by decide)
  have hcomma : ',' ∉ token := by
    intro hmem
    have hin : ',' ∈ upper token := List.mem_map_of_mem (f := Char.toUpper) hmem
    rw [hentry] at hin
    simp [not_mem_of_digits? hday (c := ',') (by decide)] at hin
  obtain ⟨element, hread, henter⟩ := exists_enter_of_parse h hlone hcomma
  have hdenotes : Denotes .dayOfMonth (number ++ ['W']) element := hentry ▸ hread
  obtain ⟨n, hn, rfl⟩ := hdenotes.nearestWeekday_inv
  obtain rfl : n = day := Option.some.inj (hn.1.symm.trans hday)
  have hadds := adds_of_enter (complete_empty .dayOfMonth) henter
  constructor
  · intro value how
    rw [hadds.carries, carries_empty, or_iff_right Bool.false_ne_true]
    exact and_congr_left fun _ => List.mem_singleton
  · intro how
    rw [← Bool.not_eq_true, hadds.enabled, isEnabled_empty]
    simp

end MarkTable

namespace Pattern

variable {options : ParseOptions} {expression token : String} {pattern : Pattern}
  {number : List Char} {day : Nat} {date : Date}

/-- The days of a pattern hold one mark when their token is such a number. -/
theorem carries_days_of_nearest_entry (h : Pattern.parse options expression = .ok pattern)
    (htoken : (.dayOfMonth, token) ∈ pattern.fieldTokens)
    (hentry : upper token.toList = number ++ ['W']) (hday : digits? number = some day) :
    (∀ value how, pattern.days.carries value how = true ↔ value = day ∧ how = .nearestWeekday) ∧
      ∀ how : Mark, pattern.days.isEnabled how.bits = false := by
  obtain ⟨table, htable, hsettle⟩ := (exists_parse_of_parse h).1 .dayOfMonth token htoken
  have hdays : pattern.days = table := hsettle
  rw [hdays]
  exact MarkTable.carries_of_nearest_entry htable hentry hday

/-- Such days ask for the working day alone. -/
theorem monthDayHolds_nearest_iff (h : Pattern.parse options expression = .ok pattern)
    (hcarries : ∀ value how,
      pattern.days.carries value how = true ↔ value = day ∧ how = .nearestWeekday)
    (henabled : ∀ how : Mark, pattern.days.isEnabled how.bits = false) :
    pattern.MonthDayHolds date ↔ nearestWorkdayOf? date day = some date.day := by
  constructor
  · intro hholds
    cases hholds with
    | value hvalue => exact absurd ((hcarries _ _).mp hvalue).2 nofun
    | lastDay hlast => exact absurd (hlast.symm.trans (henabled .last)) Bool.noConfusion
    | nearest n _ hmark hnearest =>
      obtain ⟨rfl, -⟩ := (hcarries _ _).mp hmark
      exact hnearest
  · intro hnearest
    have hmark : pattern.days.carries day .nearestWeekday = true := (hcarries _ _).mpr ⟨rfl, rfl⟩
    have hadmits : Field.dayOfMonth.Admits day .nearestWeekday := admits_of_carries h hmark
    exact .nearest day hadmits.1 hmark hnearest

/-- With open weekdays such days decide alone. -/
theorem dayRule_of_nearest_entry (h : Pattern.parse options expression = .ok pattern)
    (hcarries : ∀ value how,
      pattern.days.carries value how = true ↔ value = day ∧ how = .nearestWeekday)
    (hweekdays : pattern.CoversWeekdays) : pattern.dayRule = .dayOfMonth := by
  have hrepresents := represents_of_parse h
  have hfull : pattern.days.isFull = false := by
    rw [← Bool.not_eq_true, hrepresents.fullDays]
    intro hcovers
    have hfirst := hcovers 1 (Nat.le_refl 1) (by decide)
    exact absurd ((hcarries _ _).mp hfirst).2 nofun
  rw [dayRule, hfull, hrepresents.fullWeekdays.mpr hweekdays]

end Pattern

namespace Schedule

open Pattern

/-- **The nearest working day.**  Before the last year of the calendar, every day of a month has
one working day that is nearest to it, the one that is found.  A pattern whose day of month is
one number with a `W` and whose weekdays are open has an answer for every date, and it is yes
for this working day alone. -/
theorem matchesDay_nearest_workday :
    (∀ (date : Date) (day : Nat), date.year < lastYear →
      1 ≤ day ∧ day ≤ daysInMonth date.year date.month →
        ∃ picked, Date.SameMonth picked date ∧
          nearestWorkdayOf? date day = some picked.day ∧ picked.IsNearestWorkday day ∧
          ∀ other, Date.SameMonth other date → other.IsNearestWorkday day → other = picked) ∧
    ∀ {options : ParseOptions} {expression token : String} {schedule : Schedule}
      {number : List Char} {day : Nat}, parseWith options expression = .ok schedule →
        (.dayOfMonth, token) ∈ schedule.pattern.fieldTokens →
        upper token.toList = number ++ ['W'] → digits? number = some day →
        schedule.pattern.CoversWeekdays → ∀ date : Date, date.year < lastYear →
          ∃ b, schedule.pattern.matchesDay date.year date.month date.day = .ok b ∧
            (b = true ↔ date.IsNearestWorkday day) := by
  constructor
  · intro date day hyear hday
    obtain ⟨picked, ⟨hmonth, hnearest⟩, hunique⟩ :=
      Date.existsUnique_isNearestWorkday hyear hday
    refine ⟨picked, hmonth, ?_, hnearest, fun other hother hnearest' =>
      hunique other ⟨hother, hnearest'⟩⟩
    have hfound : nearestWorkdayOf? picked day = some picked.day :=
      (nearestWorkdayOf?_eq_some_iff (by rwa [hmonth.year])).mpr hnearest
    rwa [nearestWorkdayOf?, hmonth.year, hmonth.month] at hfound
  · intro options expression token schedule number day hparse htoken hentry hday hweekdays date
      hyear
    obtain ⟨pattern, hpattern, rfl⟩ := map_eq_ok_iff.mp hparse
    obtain ⟨monthDay, weekday, hmatches, hmonthDay, -⟩ :=
      matchesDate_exact (aligned_of_parse hpattern) hyear
    obtain ⟨hcarries, henabled⟩ := carries_days_of_nearest_entry hpattern htoken hentry hday
    rw [dayRule_of_nearest_entry hpattern hcarries hweekdays] at hmatches
    refine ⟨monthDay, ?_, ?_⟩
    · rw [matchesDay, Date.ofYMD?_eq_some_iff.mpr ⟨rfl, rfl, rfl⟩]
      exact hmatches
    · rw [hmonthDay, monthDayHolds_nearest_iff hpattern hcarries henabled,
        nearestWorkdayOf?_eq_some_iff hyear]

/-- The first of June 2024 is a Saturday, and the working day nearest to it Monday the 3rd. -/
theorem matchesDay_nearest_workday_first_saturday :
    ∃ schedule date, parseWith {} "0 0 01w * 0-6" = .ok schedule ∧
      Date.ofYMD? 2024 6 3 = some date ∧ date.year < lastYear ∧
      schedule.pattern.CoversWeekdays ∧ date.IsNearestWorkday 1 ∧
      schedule.pattern.matchesDay 2024 6 3 = .ok true := by
  obtain ⟨schedule, hparse, hholds⟩ := map_eq_ok_iff.mp
    (show (parseWith {} "0 0 01w * 0-6").map (fun schedule =>
      (schedule.pattern.fieldTokens,
        (List.range 7).all (schedule.pattern.weekdays.carries · .plain))) =
        .ok ([(.minute, "0"), (.hour, "0"), (.dayOfMonth, "01w"), (.month, "*"),
          (.dayOfWeek, "0-6")], true) by decide)
  obtain ⟨htokens, hall⟩ := Prod.mk.inj hholds
  have hweekdays : schedule.pattern.CoversWeekdays := fun weekday hle =>
    List.all_eq_true.mp hall weekday (List.mem_range.mpr (Nat.lt_succ_of_le hle))
  have htoken : (Field.dayOfMonth, "01w") ∈ schedule.pattern.fieldTokens := by
    rw [htokens]
    simp
  let date : Date := ⟨2024, 6, 3, by decide, by decide, by decide⟩
  obtain ⟨hpicked, hmatches⟩ := matchesDay_nearest_workday
  obtain ⟨picked, hmonth, hfound, hnearest, -⟩ := hpicked date 1 (by decide) (by decide)
  have hthird : nearestWorkdayOf? date 1 = some date.day := by decide
  have hday : date.day = picked.day := Option.some.inj (hthird.symm.trans hfound)
  have hsame : picked = date := hmonth.eq_of_day hday.symm
  rw [hsame] at hnearest
  obtain ⟨b, hb, hyes⟩ := hmatches hparse htoken
    (show upper "01w".toList = ['0', '1'] ++ ['W'] by decide)
    (show digits? ['0', '1'] = some 1 by decide) hweekdays date (by decide)
  rw [hyes.mpr hnearest] at hb
  exact ⟨schedule, date, hparse, rfl, by decide, hweekdays, hnearest, hb⟩

end Schedule
end CronSchedule
