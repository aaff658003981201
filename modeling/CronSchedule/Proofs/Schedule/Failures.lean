import CronSchedule.Proofs.Schedule.Representation
import CronSchedule.Proofs.Schedule.Runs

/-! # Two kinds of failure

Parsing and matching share the checked operations on tables, and these refuse a value or a
mark in the same words.  Still an expression is refused for its text only, and a question
about a parsed pattern fails for the calendar only (`failures_never_mix`).

For a question this is because every value and mark that it asks for is one of the field: a
part of a wall clock, a day near to one, or a weekday (`Pattern.Aligned.failsAs_has`).  That
goes also for dates in the last year of the calendar, where the questions themselves fail.
The rest follows the way in which questions, passes and searches are put together.
-/
namespace CronSchedule

/-! ## How outcomes fail -/

/-- Whether an outcome fails, if it does, with an error that blames the expression, or with
one that does not. -/
def FailsAs (malformed : Bool) {α : Type} (outcome : Except Error α) : Prop :=
  ∀ error, outcome = .error error → error.isMalformed = malformed

section

variable {malformed : Bool} {α β : Type} {outcome : Except Error α} {error : Error}

theorem failsAs_ok (malformed : Bool) (a : α) : FailsAs malformed (.ok a : Except Error α) := nofun

theorem failsAs_error (h : error.isMalformed = malformed) :
    FailsAs malformed (.error error : Except Error α) := by
  intro other hother
  cases hother
  exact h

theorem failsAs_of_exists (h : ∃ a, outcome = .ok a) : FailsAs malformed outcome := by
  obtain ⟨a, rfl⟩ := h
  exact failsAs_ok malformed a

theorem FailsAs.bind {f : α → Except Error β} (h : FailsAs malformed outcome)
    (hrest : ∀ a, FailsAs malformed (f a)) : FailsAs malformed (outcome >>= f) := by
  intro error herror
  rcases bind_eq_error_iff.mp herror with hfirst | ⟨a, -, hsecond⟩
  · exact h error hfirst
  · exact hrest a error hsecond

theorem FailsAs.map {f : α → β} (h : FailsAs malformed outcome) :
    FailsAs malformed (outcome.map f) :=
  fun error herror => h error (map_eq_error_iff.mp herror)

/-- A guard fails with its own error. -/
theorem failsAs_ite {bad : Prop} [Decidable bad] (herror : error.isMalformed = malformed)
    (h : ¬bad → FailsAs malformed outcome) :
    FailsAs malformed (if bad then .error error else outcome) := by
  split
  · exact failsAs_error herror
  · rename_i hgood
    exact h hgood

theorem FailsAs.both {first second : Except Error Bool} (h : FailsAs malformed first)
    (h' : FailsAs malformed second) : FailsAs malformed (first <&&> second) := by
  cases first with
  | error e => exact h
  | ok b =>
    cases b with
    | false => exact failsAs_ok malformed false
    | true => exact h'

theorem FailsAs.either {first second : Except Error Bool} (h : FailsAs malformed first)
    (h' : FailsAs malformed second) : FailsAs malformed (first <||> second) := by
  cases first with
  | error e => exact h
  | ok b =>
    cases b with
    | false => exact h'
    | true => exact failsAs_ok malformed true

end

/-! ## Parsing -/

/-- A fault in a table is an error of its field. -/
theorem failsAs_mapError {α : Type} (field : Field) (outcome : Except Fault α) :
    FailsAs true (outcome.mapError (.invalidField field)) := by
  cases outcome with
  | error fault => exact failsAs_error rfl
  | ok a => exact failsAs_ok true a

theorem MarkTable.failsAs_parse (field : Field) (token : List Char) :
    FailsAs true (MarkTable.parse field token) := by
  unfold MarkTable.parse
  simp only
  split
  · exact failsAs_error rfl
  · exact failsAs_mapError field _

namespace Pattern

theorem failsAs_assemble (bothDays : Bool) (text : List Char) (tokens : List (List Char))
    (seconds : MarkTable) (minute hour day month weekday : List Char) :
    FailsAs true (assemble bothDays text tokens seconds minute hour day month weekday) :=
  (MarkTable.failsAs_parse _ _).bind fun _ => (MarkTable.failsAs_parse _ _).bind fun _ =>
    (MarkTable.failsAs_parse _ _).bind fun _ => (MarkTable.failsAs_parse _ _).bind fun _ =>
      (MarkTable.failsAs_parse _ _).bind fun _ => (failsAs_mapError _ _).bind fun _ =>
        failsAs_ok true _

theorem failsAs_parse (options : ParseOptions) (expression : String) :
    FailsAs true (Pattern.parse options expression) := by
  unfold Pattern.parse
  refine failsAs_ite rfl fun _ => ?_
  unfold ofWords
  split
  · refine (failsAs_mapError _ _).bind fun _ => ?_
    split
    · exact failsAs_assemble _ _ _ _ _ _ _ _ _
    · exact (MarkTable.failsAs_parse _ _).bind fun _ => failsAs_assemble _ _ _ _ _ _ _ _ _
    · exact failsAs_error rfl
  · exact failsAs_error rfl

end Pattern

namespace MarkTable

variable {table : MarkTable} {value : Nat} {marks : Marks}

/-- A value that passes the check of a complete table has its entry there. -/
theorem lt_size_of_check (hcomplete : table.Complete) (h : table.check value marks = .ok ()) :
    value < table.entries.size := by
  have hvalue := ((table.check_eq_ok_iff value marks).mp h).1
  rw [hcomplete]
  omega

end MarkTable

/-! ## Questions -/

namespace Pattern

variable {pattern : Pattern} {unit : TimeUnit} {value : Nat} {how : Mark}

/-- Asked for a value and a mark of its field, a table has an answer. -/
theorem Aligned.failsAs_has (h : pattern.Aligned) (field : Field)
    (hvalue : field.min ≤ value ∧ value ≤ field.max) (hmark : field.supports how.bits = true) :
    FailsAs false ((pattern.table field).has value how) :=
  failsAs_of_exists ⟨_, h.has_eq_ok field hvalue hmark⟩

/-- Nor does a question fail otherwise that holds a part of the time of day against the end
of its field first. -/
theorem Aligned.failsAs_hasUpTo (h : pattern.Aligned) (field : Field) (hmin : field.min = 0)
    (value : Nat) : FailsAs false ((pattern.table field).hasUpTo field.max value) :=
  failsAs_ite rfl fun hmax => h.failsAs_has field ⟨hmin ▸ Nat.zero_le value, Nat.not_lt.mp hmax⟩
    (Field.supports_plain field)

theorem failsAs_matchesLastDay (pattern : Pattern) (date : Date) :
    FailsAs false (pattern.matchesLastDay date) := by
  unfold matchesLastDay
  split
  · split
    · exact failsAs_ok false _
    · exact failsAs_error rfl
  · exact failsAs_ok false _

theorem failsAs_matchesDayOfMonth (h : pattern.Aligned) (date : Date) :
    FailsAs false (pattern.matchesDayOfMonth date) := by
  have hnear : FailsAs false (pattern.matchesNearest date (nearDays date.day)) :=
    failsAs_of_exists ⟨_, matchesNearest_eq_ok h fun _ => mem_nearDays⟩
  exact (h.failsAs_has .dayOfMonth date.day_mem_field (Field.supports_plain _)).either
    ((pattern.failsAs_matchesLastDay date).either hnear)

theorem failsAs_isLastWeekday (date : Date) : FailsAs false (isLastWeekday date) := by
  unfold isLastWeekday
  split
  · exact failsAs_ok false _
  · exact failsAs_error rfl

theorem failsAs_matchesDayOfWeek (h : pattern.Aligned) (date : Date) :
    FailsAs false (pattern.matchesDayOfWeek date) := by
  have hweekday : date.weekday ≤ 7 := Nat.le_of_lt date.weekday_lt
  have hnth : FailsAs false (pattern.matchesNth date.weekday date.weekdayRank [0, 1, 2, 3, 4]) :=
    failsAs_of_exists ⟨_, matchesNth_eq_ok h hweekday _ _⟩
  have hlast := h.failsAs_has .dayOfWeek ⟨Nat.zero_le _, hweekday⟩
    (show Field.dayOfWeek.supports Mark.last.bits = true by decide)
  exact (h.failsAs_has .dayOfWeek ⟨Nat.zero_le _, hweekday⟩ (Field.supports_plain _)).either
    (hnth.either (hlast.both (failsAs_isLastWeekday date)))

theorem failsAs_matchesDate (h : pattern.Aligned) (date : Date) :
    FailsAs false (pattern.matchesDate date) :=
  (failsAs_matchesDayOfMonth h date).bind fun _ =>
    (failsAs_matchesDayOfWeek h date).bind fun _ => failsAs_ok false _

theorem failsAs_matchesMonth (h : pattern.Aligned) (month : Nat) :
    FailsAs false (pattern.matchesMonth month) :=
  failsAs_ite rfl fun hmonth =>
    h.failsAs_has .month ⟨by simp only [Field.min]; omega, by simp only [Field.max]; omega⟩
      (Field.supports_plain _)

theorem failsAs_matchesClock (h : pattern.Aligned) (clock : WallClock) :
    FailsAs false (pattern.matchesClock clock) := by
  have hsecond : FailsAs false (pattern.matchesSecond clock.second) :=
    h.failsAs_hasUpTo .second rfl clock.second
  have hminute : FailsAs false (pattern.matchesMinute clock.minute) :=
    h.failsAs_hasUpTo .minute rfl clock.minute
  have hhour : FailsAs false (pattern.matchesHour clock.hour) :=
    h.failsAs_hasUpTo .hour rfl clock.hour
  exact hsecond.both (hminute.both (hhour.both
    ((failsAs_matchesDate h clock.date).both (failsAs_matchesMonth h clock.date.month))))

/-! ## Passes -/

theorem failsAs_putPart (clock : WallClock) (value : Nat) (unit : TimeUnit) :
    FailsAs false (putPart clock value unit) := by
  unfold putPart
  split
  · exact failsAs_ok false _
  · exact failsAs_error rfl

/-- A part of a pass fails as the search for its next value and the rest do, or for the
calendar. -/
theorem failsAs_passPart {unit : TimeUnit} {next : Nat → Except Error (Option Nat)}
    {rest : WallClock → Except Error Pass} (hnext : ∀ start, FailsAs false (next start))
    (hrest : ∀ clock, FailsAs false (rest clock)) (clock : WallClock) :
    FailsAs false (passPart unit next rest clock) := by
  unfold passPart
  split
  · rename_i e herror
    exact failsAs_error (hnext _ e herror)
  · exact failsAs_ok false _
  · split
    · exact hrest clock
    · exact (failsAs_putPart _ _ _).bind hrest

/-- The next value of a part of the time of day is missed only past the end of this part. -/
theorem failsAs_nextUpTo (table : MarkTable) (largest start : Nat) :
    FailsAs false (table.nextUpTo largest start) :=
  failsAs_ite rfl fun _ => failsAs_of_exists ⟨_, table.nextPlain_eq start⟩

theorem failsAs_passHour (pattern : Pattern) (clock : WallClock) :
    FailsAs false (pattern.passHour clock) := by
  refine failsAs_passPart (failsAs_nextUpTo _ _) (fun atHour => ?_) clock
  refine failsAs_passPart (failsAs_nextUpTo _ _) (fun atMinute => ?_) atHour
  rw [passSecond_eq]
  exact failsAs_passPart (failsAs_nextUpTo _ _) (fun atSecond => failsAs_ok false _) atMinute

theorem failsAs_pass (h : pattern.Aligned) (clock : WallClock) :
    FailsAs false (pattern.pass clock) := by
  have hmonth := failsAs_matchesMonth h clock.date.month
  have hdate := failsAs_matchesDate h clock.date
  unfold pass
  split
  · rename_i e herror
    exact failsAs_error (hmonth e herror)
  · exact failsAs_ok false _
  · split
    · rename_i e herror
      exact failsAs_error (hdate e herror)
    · exact failsAs_ok false _
    · exact pattern.failsAs_passHour clock

end Pattern

/-! ## Searches and lists -/

namespace Schedule

variable {schedule : Schedule}

theorem failsAs_isMatch (h : schedule.pattern.Aligned) (zone : Zone) (instant : Instant) :
    FailsAs false (schedule.isMatch zone instant) := by
  unfold isMatch
  split
  · exact Pattern.failsAs_matchesClock h _
  · exact failsAs_error rfl

theorem failsAs_firstMatch (h : schedule.pattern.Aligned) (limit : Int) (clock : WallClock) :
    FailsAs false (schedule.firstMatch limit clock) := by
  fun_induction schedule.firstMatch limit clock with
  | case1 => exact failsAs_error rfl
  | case2 clock _ e hpass => exact failsAs_error (Pattern.failsAs_pass h clock e hpass)
  | case3 => exact failsAs_ok false _
  | case4 => exact failsAs_error rfl
  | case5 _ _ _ _ _ _ _ _ ih => exact ih

theorem failsAs_firstInstant (h : schedule.pattern.Aligned) (zone : Zone)
    (accepts : Instant → Bool) (limit : Int) (clock : WallClock) :
    FailsAs false (schedule.firstInstant zone accepts limit clock) := by
  fun_induction schedule.firstInstant zone accepts limit clock with
  | case1 clock e hmatch => exact failsAs_error (failsAs_firstMatch h limit clock e hmatch)
  | case2 => exact failsAs_ok false _
  | case3 => exact failsAs_error rfl
  | case4 _ _ _ _ _ _ _ ih => exact ih

theorem failsAs_nextOccurrence (h : schedule.pattern.Aligned) (zone : Zone) (start : Instant)
    (inclusive : Bool) : FailsAs false (schedule.nextOccurrence zone start inclusive) := by
  unfold nextOccurrence
  split
  · exact failsAs_error rfl
  · split
    · exact failsAs_error rfl
    · exact failsAs_firstInstant h _ _ _ _

end Schedule

namespace Occurrences

variable {schedule : Schedule} {item : Except Error Instant}

/-- An item of a list is the answer of a search for the same schedule. -/
theorem failsAs_of_mem_results (h : schedule.pattern.Aligned) {calls : Nat} {zone : Zone}
    {start : Instant} {inclusive finished : Bool}
    (hmem : some item ∈ results ⟨schedule, zone, start, inclusive, finished⟩ calls) :
    FailsAs false item := by
  induction calls generalizing start inclusive finished with
  | zero => cases hmem
  | succ calls ih =>
    cases finished with
    | true =>
      -- a list that is finished has no more items
      rw [results_of_finished rfl] at hmem
      cases List.eq_of_mem_replicate hmem
    | false =>
      have hsearch := Schedule.failsAs_nextOccurrence h zone start inclusive
      cases hnext : schedule.nextOccurrence zone start inclusive with
      | ok found =>
        rw [results, next_eq_of_ok hnext] at hmem
        rcases List.mem_cons.mp hmem with hitem | hrest
        · cases hitem
          exact failsAs_ok false found
        · exact ih hrest
      | error error =>
        rw [results, next_eq_of_error hnext] at hmem
        rcases List.mem_cons.mp hmem with hitem | hrest
        · cases hitem
          exact failsAs_error (hsearch error hnext)
        · exact ih hrest

end Occurrences

namespace Schedule

/-- **Failures never mix.**  Parsing fails with an error that blames the expression, and with
no other; while it enters a token, as far as that gets, each value that passes a check has
its entry in the table.  Of a schedule that was parsed, neither matching nor searching nor
listing ever fails with an error that blames the expression. -/
theorem failures_never_mix (options : ParseOptions) (expression : String) :
    (∀ error, parseWith options expression = .error error → error.isMalformed = true) ∧
    (∀ field token value marks,
      ((MarkTable.empty field).enterToken token).1.check value marks = .ok () →
        value < ((MarkTable.empty field).enterToken token).1.entries.size) ∧
    ∀ schedule, parseWith options expression = .ok schedule → ∀ zone,
      (∀ field value marks, (schedule.pattern.table field).check value marks = .ok () →
        value < (schedule.pattern.table field).entries.size) ∧
      (∀ instant error, schedule.isMatch zone instant = .error error →
        error.isMalformed = false) ∧
      (∀ start inclusive error, schedule.nextOccurrence zone start inclusive = .error error →
        error.isMalformed = false) ∧
      ∀ start inclusive calls error,
        some (.error error) ∈ (schedule.occurrences zone start inclusive).results calls →
          error.isMalformed = false := by
  refine ⟨(Pattern.failsAs_parse options expression).map, fun field token value marks hcheck => ?_,
    fun schedule hparse zone => ?_⟩
  · have hbounded := MarkTable.bounded_enterToken (MarkTable.bounded_empty field) token
    exact MarkTable.lt_size_of_check hbounded.complete hcheck
  · have haligned := aligned_of_parseWith hparse
    obtain ⟨pattern, hpattern, rfl⟩ := map_eq_ok_iff.mp hparse
    refine ⟨fun field _ _ => MarkTable.lt_size_of_check (Pattern.complete_of_parse hpattern field),
      failsAs_isMatch haligned zone, failsAs_nextOccurrence haligned zone,
      fun start inclusive calls error hmem => ?_⟩
    rw [occurrences_eq] at hmem
    exact Occurrences.failsAs_of_mem_results haligned hmem error rfl

/-- A day that no month has is refused with the expression; the last day of the last month
of the calendar cannot be told, and for that the expression is not blamed. -/
theorem failures_never_mix_at_last_day :
    ∃ refused failed schedule, parseWith {} "0 0 32 * *" = .error refused ∧
      refused.isMalformed = true ∧ parseWith {} "* * L * *" = .ok schedule ∧
      schedule.isMatch .utc ⟨8210266876740, 0⟩ = .error failed ∧ failed.isMalformed = false := by
  have hrefused : parseWith {} "0 0 32 * *" =
      .error (.invalidField .dayOfMonth (.valueOutOfRange 32)) := by decide
  obtain ⟨schedule, hparse, hfails⟩ := bind_eq_ok_iff.mp
    (show (parseWith {} "* * L * *" >>= fun schedule =>
      .ok (schedule.isMatch .utc ⟨8210266876740, 0⟩)) = .ok (.error .invalidDate)
      by decide +kernel)
  have hfailed := Except.ok.inj hfails
  exact ⟨_, _, schedule, hrefused, (failures_never_mix {} _).1 _ hrefused, hparse, hfailed,
    ((failures_never_mix {} _).2.2 schedule hparse .utc).2.1 _ _ hfailed⟩

end Schedule
end CronSchedule
