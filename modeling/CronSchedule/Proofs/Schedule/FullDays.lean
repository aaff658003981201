import CronSchedule.Proofs.Schedule.DayMeaning
import CronSchedule.Proofs.Schedule.SameAnswers
import CronSchedule.Proofs.Schedule.WordByWord

/-! # Day fields that cover their domain

A day field whose elements together name all of its values is a wildcard, however it is
written and whatever else its list asks for (`full_days_answer_alike`).  Two things make it
so.  The rule by which the day fields combine looks at the plain values only.  And a date is
asked for its plain value first: once this matches, nothing is looked up that could fail or
depend on the other marks (`matchesDayOfMonth_of_covers`, `matchesDayOfWeek_of_covers`).

What a token covers is said of its text (`Field.Covers`): each value is one that an element
of the token says.
-/
namespace CronSchedule

open MarkTable

/-- Whether a token says of every value of its field that it matches plainly, the weekdays
being counted from 0 to 6. -/
def Field.Covers (field : Field) (token : List Char) : Prop :=
  ∀ value, field.min ≤ value → value ≤ (if field = .dayOfWeek then 6 else field.max) →
    field.Settled (WordSays field (field.normalize token)) value .plain

/-- A token covers its field exactly when its table is full. -/
theorem Field.covers_iff_isFull {field : Field} {token : List Char} {table : MarkTable}
    (h : MarkTable.parse field token = .ok table) :
    field.Covers token ↔ (Pattern.settle field table).isFull = true := by
  have hfield : (Pattern.settle field table).field = field :=
    (Pattern.field_settle field table).trans (field_of_parse h)
  rw [isFull_iff (Pattern.complete_settle h), hfield, Covers]
  simp only [carries_settle (adds_of_parse h).2]

namespace Pattern

variable {pattern : Pattern}

/-! ## Dates of a full field -/

/-- Where all days match, no date is asked for anything but its day. -/
theorem matchesDayOfMonth_of_covers (h : pattern.Aligned) (hcovers : pattern.CoversDays)
    (date : Date) : pattern.matchesDayOfMonth date = .ok true := by
  obtain ⟨hmin, hmax⟩ := date.day_mem_field
  rw [matchesDayOfMonth, h.has_day, hcovers date.day hmin hmax, orM_true]

/-- Where all weekdays match, no date is asked for anything but its weekday. -/
theorem matchesDayOfWeek_of_covers (h : pattern.Aligned) (hcovers : pattern.CoversWeekdays)
    (date : Date) : pattern.matchesDayOfWeek date = .ok true := by
  have hweekday := date.weekday_lt
  simp only [matchesDayOfWeek]
  rw [h.has_weekday (Nat.le_of_lt hweekday) (Field.supports_plain _),
    hcovers date.weekday (Nat.le_of_lt_succ hweekday), orM_true]

end Pattern

/-! ## Expressions -/

namespace Schedule

open Pattern

variable {options : ParseOptions} {expression other : String} {schedule again : Schedule}

/-- Whether a word is kept, or both it and the one in its place cover a day field. -/
def KeptOrFull (field : Field) (token replacement : List Char) : Prop :=
  token = replacement ∨
    (field = .dayOfMonth ∨ field = .dayOfWeek) ∧ field.Covers token ∧ field.Covers replacement

/-- So the tables of a field are the same, or both are full ones of a day field. -/
theorem table_eq_or_isFull (hwords : WordByWord KeptOrFull expression other)
    (hparse : parseWith options expression = .ok schedule)
    (hagain : parseWith options other = .ok again) (field : Field) :
    schedule.pattern.table field = again.pattern.table field ∨
      (field = .dayOfMonth ∨ field = .dayOfWeek) ∧
        (schedule.pattern.table field).isFull = true ∧
          (again.pattern.table field).isFull = true := by
  obtain ⟨pattern, hpattern, rfl⟩ := map_eq_ok_iff.mp hparse
  obtain ⟨later, hlater, rfl⟩ := map_eq_ok_iff.mp hagain
  rcases tables_of_wordByWord hwords hpattern hlater field with
    ⟨token, replacement, table, table', hrelated, ⟨htable, heq⟩, htable', heq'⟩ |
      ⟨-, hzero, hzero'⟩
  · rw [heq, heq']
    rcases hrelated with rfl | ⟨hday, hcovers, hcovers'⟩
    · rw [htable, Except.ok.injEq] at htable'
      exact .inl (congrArg _ htable')
    · exact .inr ⟨hday, (Field.covers_iff_isFull htable).mp hcovers,
        (Field.covers_iff_isFull htable').mp hcovers'⟩
  · exact .inl (hzero.trans hzero'.symm)

/-- So the rule reads the same off the days of month, and each date gets the same answer. -/
theorem dayOfMonth_answers_alike (hwords : WordByWord KeptOrFull expression other)
    (hparse : parseWith options expression = .ok schedule)
    (hagain : parseWith options other = .ok again) :
    schedule.pattern.days.isFull = again.pattern.days.isFull ∧ ∀ date,
      schedule.pattern.matchesDayOfMonth date = again.pattern.matchesDayOfMonth date := by
  rcases table_eq_or_isFull hwords hparse hagain .dayOfMonth with heq | ⟨-, hfull, hfull'⟩
  · exact ⟨congrArg _ heq, fun date => matchesDayOfMonth_congr heq date.askedAlike_refl⟩
  · refine ⟨hfull.trans hfull'.symm, fun date => ?_⟩
    have hcovers := (represents_of_parseWith hparse).1.fullDays.mp hfull
    have hcovers' := (represents_of_parseWith hagain).1.fullDays.mp hfull'
    rw [matchesDayOfMonth_of_covers (aligned_of_parseWith hparse) hcovers,
      matchesDayOfMonth_of_covers (aligned_of_parseWith hagain) hcovers']

/-- The same of the days of week. -/
theorem dayOfWeek_answers_alike (hwords : WordByWord KeptOrFull expression other)
    (hparse : parseWith options expression = .ok schedule)
    (hagain : parseWith options other = .ok again) :
    schedule.pattern.weekdays.isFull = again.pattern.weekdays.isFull ∧ ∀ date,
      schedule.pattern.matchesDayOfWeek date = again.pattern.matchesDayOfWeek date := by
  rcases table_eq_or_isFull hwords hparse hagain .dayOfWeek with heq | ⟨-, hfull, hfull'⟩
  · exact ⟨congrArg _ heq, fun date => matchesDayOfWeek_congr heq date.askedAlike_refl⟩
  · refine ⟨hfull.trans hfull'.symm, fun date => ?_⟩
    have hcovers := (represents_of_parseWith hparse).1.fullWeekdays.mp hfull
    have hcovers' := (represents_of_parseWith hagain).1.fullWeekdays.mp hfull'
    rw [matchesDayOfWeek_of_covers (aligned_of_parseWith hparse) hcovers,
      matchesDayOfWeek_of_covers (aligned_of_parseWith hagain) hcovers']

/-- **Full day fields are wildcards.**  Let two expressions have the same words, but for day
fields that both cover.  Parsed with the same options, they have the same day rule, match the
same instants, and every search finds the same, failures included. -/
theorem full_days_answer_alike (hwords : WordByWord KeptOrFull expression other)
    (hparse : parseWith options expression = .ok schedule)
    (hagain : parseWith options other = .ok again) :
    schedule.dayRule = again.dayRule ∧
    (∀ zone instant, schedule.isMatch zone instant = again.isMatch zone instant) ∧
    ∀ zone start inclusive,
      schedule.nextOccurrence zone start inclusive = again.nextOccurrence zone start inclusive := by
  have hkept : ∀ field, field ≠ .dayOfMonth → field ≠ .dayOfWeek →
      schedule.pattern.table field = again.pattern.table field := by
    intro field hmonth hweek
    rcases table_eq_or_isFull hwords hparse hagain field with heq | ⟨rfl | rfl, -⟩
    · exact heq
    · exact absurd rfl hmonth
    · exact absurd rfl hweek
  obtain ⟨hfullDays, hdays⟩ := dayOfMonth_answers_alike hwords hparse hagain
  obtain ⟨hfullWeekdays, hweekdays⟩ := dayOfWeek_answers_alike hwords hparse hagain
  have hboth : schedule.pattern.bothDays = again.pattern.bothDays :=
    (bothDays_of_parseWith hparse).trans (bothDays_of_parseWith hagain).symm
  have hrule : schedule.pattern.dayRule = again.pattern.dayRule :=
    dayRule_congr hfullDays hfullWeekdays hboth
  have halike : schedule.AnswersAlike again := by
    refine ⟨⟨hkept .second nofun nofun, hkept .minute nofun nofun, hkept .hour nofun nofun,
      hkept .month nofun nofun, fun date => ?_⟩, ?_⟩
    · rw [matchesDate, matchesDate, hdays, hweekdays, hrule]
    · exact (horizon_of_parseWith hparse).trans (horizon_of_parseWith hagain).symm
  exact ⟨hrule, halike.isMatch_eq, halike.nextOccurrence_eq⟩

/-- Both day fields are written in two ways, with further marks in one each. -/
theorem full_days_answer_alike_with_marks :
    ∃ schedule again, parseWith { bothDays := true } "0 0 ? * 1-7,MON#2" = .ok schedule ∧
      parseWith { bothDays := true } "0 0 L,15W,2-31,1 * *" = .ok again ∧
      WordByWord KeptOrFull "0 0 ? * 1-7,MON#2" "0 0 L,15W,2-31,1 * *" ∧
      schedule.pattern ≠ again.pattern ∧ schedule.dayRule = again.dayRule ∧
      ∀ zone start inclusive, schedule.nextOccurrence zone start inclusive =
        again.nextOccurrence zone start inclusive := by
  have hcovers : ∀ field token,
      (MarkTable.parse field token).map (fun table => (settle field table).isFull) = .ok true →
        field.Covers token := by
    intro field token hfull
    obtain ⟨table, htable, hisFull⟩ := map_eq_ok_iff.mp hfull
    exact (Field.covers_iff_isFull htable).mpr hisFull
  have hwords : WordByWord KeptOrFull "0 0 ? * 1-7,MON#2" "0 0 L,15W,2-31,1 * *" := by
    refine wordByWord_of_zip (by decide) ?_
    rw [show (fieldsOf (wordsOf "0 0 ? * 1-7,MON#2").length).zip ((wordsOf "0 0 ? * 1-7,MON#2").zip
        (wordsOf "0 0 L,15W,2-31,1 * *")) =
      [(.minute, ['0'], ['0']), (.hour, ['0'], ['0']),
        (.dayOfMonth, ['?'], "L,15W,2-31,1".toList), (.month, ['*'], ['*']),
        (.dayOfWeek, "1-7,MON#2".toList, ['*'])] by decide]
    simp only [List.forall_mem_cons]
    refine ⟨.inl rfl, .inl rfl, .inr ⟨.inl rfl, ?_, ?_⟩, .inl rfl, .inr ⟨.inr rfl, ?_, ?_⟩, nofun⟩
    all_goals exact hcovers _ _ (by decide +kernel)
  obtain ⟨schedule, hparse, hmarks⟩ := map_eq_ok_iff.mp
    (show (parseWith { bothDays := true } "0 0 ? * 1-7,MON#2").map
      (fun schedule => schedule.pattern.days.isEnabled Mark.last.bits) = .ok false by decide)
  obtain ⟨again, hagain, hmarks'⟩ := map_eq_ok_iff.mp
    (show (parseWith { bothDays := true } "0 0 L,15W,2-31,1 * *").map
      (fun schedule => schedule.pattern.days.isEnabled Mark.last.bits) = .ok true by decide)
  obtain ⟨hrule, -, hsearch⟩ := full_days_answer_alike hwords hparse hagain
  refine ⟨schedule, again, hparse, hagain, hwords, fun heq => ?_, hrule, hsearch⟩
  rw [heq, hmarks'] at hmarks
  cases hmarks

end Schedule
end CronSchedule
