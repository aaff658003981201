import CronSchedule.Interchange.Basic
import CronSchedule.Proofs.Schedule.Representation

/-! # A schedule and its text

A schedule is kept and exchanged as its text alone, and read back under the default options.
The text is trimmed and consists of the words that were parsed, so it is cut into the same
words again, and the default options take any number of words that other options take.
Hence the schedule that is read back has the same text and tables (`parse_text`); it differs
only in what the options add to an expression, which are `Schedule.underDefaults`.
-/
namespace CronSchedule

open Text Pattern

/-- The default options take an expression with seconds and one without. -/
theorem SecondsMode.optional_accepts {mode : SecondsMode} {count : Nat}
    (h : mode.accepts count = true) : optional.accepts count = true := by
  rcases eq_of_accepts h with rfl | rfl
  · rfl
  · rfl

namespace Schedule

variable {options : ParseOptions} {expression : String} {schedule : Schedule}

/-- The schedule of the same expression under the default options. -/
def underDefaults (schedule : Schedule) : Schedule where
  pattern := { schedule.pattern with bothDays := false }
  horizon := defaultHorizon

@[simp] theorem text_underDefaults : schedule.underDefaults.text = schedule.text := rfl

@[simp] theorem table_underDefaults (field : Field) :
    schedule.underDefaults.pattern.table field = schedule.pattern.table field :=
  table_update schedule.pattern _ _ _ field

@[simp] theorem underDefaults_underDefaults :
    schedule.underDefaults.underDefaults = schedule.underDefaults := rfl

/-- Only the options make a difference, and only where they are not the default ones. -/
theorem underDefaults_eq_self_iff : schedule.underDefaults = schedule ↔
    schedule.pattern.bothDays = false ∧ schedule.horizon = defaultHorizon := by
  constructor
  · intro h
    rw [← h]
    exact ⟨rfl, rfl⟩
  · rintro ⟨hboth, hhorizon⟩
    rw [underDefaults, ← hboth, ← hhorizon]

/-- The text of a schedule is read back as the schedule of the default options. -/
theorem parse_text (h : parseWith options expression = .ok schedule) :
    Schedule.parse schedule.text = .ok schedule.underDefaults := by
  obtain ⟨pattern, hpattern, rfl⟩ := map_eq_ok_iff.mp h
  obtain ⟨hseparated, hwords⟩ := parse_inv hpattern
  obtain ⟨htext, -, -, haccepts⟩ := ofWords_inv hwords
  -- the text is trimmed, and separated into the same words
  have htrim : trim pattern.text.toList = trim expression.toList := by
    rw [htext, String.toList_ofList, hseparated.trimmed.trim_eq_self]
  have hread : Pattern.parse {} pattern.text = .ok { pattern with bothDays := false } := by
    rw [parse_eq_ofWords (htrim ▸ hseparated), htrim]
    exact ofWords_of_accepts hwords (SecondsMode.optional_accepts haccepts)
  exact map_eq_ok_iff.mpr ⟨_, hread, rfl⟩

/-- Reading back a second time changes nothing. -/
theorem parse_text_underDefaults (h : parseWith options expression = .ok schedule) :
    Schedule.parse schedule.underDefaults.text = .ok schedule.underDefaults := by
  have hagain := parse_text (parse_text h)
  rwa [underDefaults_underDefaults] at hagain

/-- A schedule shows its text trimmed, with the gaps as they were written. -/
example : (parseWith {} "\t0  0 * * ? ").map (·.text) = .ok "0  0 * * ?" := by decide

theorem ofValue_toValue {other : Schedule} (h : Schedule.parse schedule.text = .ok other) :
    ofValue schedule.toValue = .ok other :=
  mapError_eq_ok_iff.mpr h

/-- **Text round trip.**  The text of a schedule, and the value that it is exchanged as, are
read back under the default options without fail.  What is read has the text, the tokens,
the tables and the full day fields of the schedule, is read back as itself, and is the
schedule just where its options were the default ones. -/
theorem text_round_trip (hparse : parseWith options expression = .ok schedule) :
    ∃ again, Schedule.parse schedule.text = .ok again ∧
      ofValue schedule.toValue = .ok again ∧
      again.text = schedule.text ∧ again.pattern.tokens = schedule.pattern.tokens ∧
      (∀ field, again.pattern.table field = schedule.pattern.table field) ∧
      again.pattern.days.isFull = schedule.pattern.days.isFull ∧
      again.pattern.weekdays.isFull = schedule.pattern.weekdays.isFull ∧
      Schedule.parse again.text = .ok again ∧ ofValue again.toValue = .ok again ∧
      (again = schedule ↔ options.bothDays = false ∧ options.horizon = 28) := by
  have hread := parse_text hparse
  have hagain := parse_text_underDefaults hparse
  rw [← bothDays_of_parseWith hparse, ← horizon_of_parseWith hparse]
  exact ⟨schedule.underDefaults, hread, ofValue_toValue hread, text_underDefaults, rfl,
    table_underDefaults, rfl, rfl, hagain, ofValue_toValue hagain, underDefaults_eq_self_iff⟩

/-- Of a schedule with options of its own everything but these comes back. -/
theorem text_round_trip_without_options :
    ∃ schedule again, parseWith { seconds := .required, bothDays := true, horizon := 5 }
        " 0\t*/5  0 15W,L * MON#2,7L " = .ok schedule ∧
      Schedule.parse schedule.text = .ok again ∧ ofValue schedule.toValue = .ok again ∧
      again.text = schedule.text ∧ again.pattern.tokens = schedule.pattern.tokens ∧
      (∀ field, again.pattern.table field = schedule.pattern.table field) ∧
      again.pattern.days.isFull = schedule.pattern.days.isFull ∧
      again.pattern.weekdays.isFull = schedule.pattern.weekdays.isFull ∧
      Schedule.parse again.text = .ok again ∧ ofValue again.toValue = .ok again ∧
      again ≠ schedule := by
  obtain ⟨schedule, hparse⟩ := toBool_eq_true_iff.mp
    (show (parseWith { seconds := .required, bothDays := true, horizon := 5 }
      " 0\t*/5  0 15W,L * MON#2,7L ").toBool = true by decide +kernel)
  obtain ⟨again, hread, hvalue, htext, htokens, htables, hdays, hweekdays, hagain, hagain',
    hsame⟩ := text_round_trip hparse
  exact ⟨schedule, again, hparse, hread, hvalue, htext, htokens, htables, hdays, hweekdays,
    hagain, hagain', fun heq => absurd (hsame.mp heq).1 (by decide)⟩

end Schedule
end CronSchedule
