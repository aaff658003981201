import CronSchedule.Proofs.Calendar.DateOrder
import CronSchedule.Proofs.Outcome
import CronSchedule.Schedule.Parsing

/-! # Tables that stand in their own field

A pattern asks its tables only about values and marks of the field they stand for, as long
as each table is one of that field (`Pattern.Aligned`).  Parsing builds no other patterns
(`aligned_of_parseWith`): neither entering an element nor moving Sunday changes the field of a
table.

For such a pattern no question about a date before the last year of the calendar fails
(`exists_matchesDate`), and the next plain value is the smallest one that matches
(`nextPlain_eq_some`, `nextPlain_eq_none`).
-/
namespace CronSchedule

/-! ## The field of a table -/

namespace MarkTable

variable {table result : MarkTable} {field : Field} {marks : Marks}

theorem field_of_set {value : Nat} (h : table.set value marks = .ok result) :
    result.field = table.field := by
  obtain ⟨_, _, h⟩ := bind_eq_ok_iff.mp h
  cases h
  rfl

theorem field_of_unset {value : Nat} (h : table.unset value marks = .ok result) :
    result.field = table.field := by
  obtain ⟨_, _, h⟩ := bind_eq_ok_iff.mp h
  cases h
  rfl

theorem field_of_setAll {values : List Nat} (h : table.setAll marks values = .ok result) :
    result.field = table.field := by
  induction values generalizing table with
  | nil => cases h; rfl
  | cons value values ih =>
    obtain ⟨later, hset, h⟩ := bind_eq_ok_iff.mp h
    rw [ih h, field_of_set hset]

theorem field_of_enable (h : table.enable marks = .ok result) : result.field = table.field := by
  unfold enable at h
  split at h
  · cases h; rfl
  · cases h

theorem field_of_enter {element : Element} (h : table.enter element = .ok result) :
    result.field = table.field := by
  unfold enter at h
  split at h
  · exact field_of_enable h
  · exact field_of_setAll h

theorem field_of_enterText {text : List Char} (h : table.enterText text = .ok result) :
    result.field = table.field := by
  obtain ⟨element, -, h⟩ := bind_eq_ok_iff.mp h
  exact field_of_enter h

theorem field_enterTexts (table : MarkTable) (texts : List (List Char)) :
    (table.enterTexts texts).1.field = table.field := by
  induction texts generalizing table with
  | nil => rfl
  | cons text texts ih =>
    rw [enterTexts]
    split
    · rename_i later hlater
      rw [ih, field_of_enterText hlater]
    · rfl

theorem field_enterToken (table : MarkTable) (token : List Char) :
    (table.enterToken token).1.field = table.field := by
  unfold enterToken
  split
  · split
    · rename_i later hlater
      exact field_of_setAll hlater
    · rfl
  · exact field_enterTexts table _

theorem field_of_ofToken {token : List Char} (h : ofToken field token = .ok table) :
    table.field = field := by
  have hfield := field_enterToken (empty field) token
  unfold ofToken at h
  split at h
  · rename_i hresult
    cases h
    rw [hresult] at hfield
    exact hfield
  · cases h

theorem field_of_parse {token : List Char} (h : MarkTable.parse field token = .ok table) :
    table.field = field := by
  unfold MarkTable.parse at h
  simp only at h
  split at h
  · cases h
  · exact field_of_ofToken (mapError_eq_ok_iff.mp h)

theorem field_of_moveSunday {mark : Mark} (h : table.moveSunday mark = .ok result) :
    result.field = table.field := by
  obtain ⟨carried, -, h⟩ := bind_eq_ok_iff.mp h
  cases carried with
  | true =>
    obtain ⟨later, hunset, hset⟩ := bind_eq_ok_iff.mp h
    rw [field_of_set hset, field_of_unset hunset]
  | false => cases h; rfl

theorem field_of_foldlM_moveSunday {marks : List Mark}
    (h : marks.foldlM moveSunday table = .ok result) : result.field = table.field := by
  induction marks generalizing table with
  | nil => cases h; rfl
  | cons mark marks ih =>
    rw [List.foldlM_cons] at h
    obtain ⟨later, hmark, h⟩ := bind_eq_ok_iff.mp h
    rw [ih h, field_of_moveSunday hmark]

theorem field_of_foldSunday (h : table.foldSunday = .ok result) : result.field = table.field :=
  field_of_foldlM_moveSunday h

end MarkTable

namespace Pattern

variable {pattern : Pattern}

/-- Whether each table of the pattern is one of the field it stands for. -/
def Aligned (pattern : Pattern) : Prop := ∀ field, (pattern.table field).field = field

theorem aligned_of_assemble {bothDays : Bool} {text : List Char} {tokens : List (List Char)}
    {seconds : MarkTable} {minute hour day month weekday : List Char}
    (hseconds : seconds.field = .second)
    (h : assemble bothDays text tokens seconds minute hour day month weekday = .ok pattern) :
    pattern.Aligned := by
  obtain ⟨minutes, hminutes, h⟩ := bind_eq_ok_iff.mp h
  obtain ⟨hours, hhours, h⟩ := bind_eq_ok_iff.mp h
  obtain ⟨days, hdays, h⟩ := bind_eq_ok_iff.mp h
  obtain ⟨months, hmonths, h⟩ := bind_eq_ok_iff.mp h
  obtain ⟨weekdays, hweekdays, h⟩ := bind_eq_ok_iff.mp h
  obtain ⟨folded, hfolded, h⟩ := bind_eq_ok_iff.mp h
  cases h
  intro field
  cases field with
  | second => exact hseconds
  | minute => exact MarkTable.field_of_parse hminutes
  | hour => exact MarkTable.field_of_parse hhours
  | dayOfMonth => exact MarkTable.field_of_parse hdays
  | month => exact MarkTable.field_of_parse hmonths
  | dayOfWeek =>
    exact (MarkTable.field_of_foldSunday (mapError_eq_ok_iff.mp hfolded)).trans
      (MarkTable.field_of_parse hweekdays)

theorem aligned_of_parse {options : ParseOptions} {expression : String}
    (h : Pattern.parse options expression = .ok pattern) : pattern.Aligned := by
  unfold Pattern.parse at h
  simp only at h
  split at h
  · cases h
  · unfold ofWords at h
    split at h
    · obtain ⟨unwritten, hunwritten, h⟩ := bind_eq_ok_iff.mp h
      split at h
      · exact aligned_of_assemble (MarkTable.field_of_set (mapError_eq_ok_iff.mp hunwritten)) h
      · obtain ⟨seconds, hseconds, h⟩ := bind_eq_ok_iff.mp h
        exact aligned_of_assemble (MarkTable.field_of_parse hseconds) h
      · cases h
    · cases h

end Pattern

/-- Every schedule that parsing builds has its tables in their own fields. -/
theorem Schedule.aligned_of_parseWith {options : ParseOptions} {expression : String}
    {schedule : Schedule} (h : Schedule.parseWith options expression = .ok schedule) :
    schedule.pattern.Aligned := by
  obtain ⟨pattern, hpattern, rfl⟩ := map_eq_ok_iff.mp h
  exact Pattern.aligned_of_parse hpattern

theorem Schedule.horizon_of_parseWith {options : ParseOptions} {expression : String}
    {schedule : Schedule} (h : Schedule.parseWith options expression = .ok schedule) :
    schedule.horizon = options.horizon := by
  obtain ⟨pattern, -, rfl⟩ := map_eq_ok_iff.mp h
  rfl

/-! ## Questions about one table -/

namespace MarkTable

variable {table : MarkTable} {value start : Nat} {mark : Mark}

/-- Whether a value carries a mark. -/
def carries (table : MarkTable) (value : Nat) (mark : Mark) : Bool :=
  table.marksOf value &&& mark.bits != 0#8

theorem isSet_eq_ok (hvalue : table.field.min ≤ value ∧ value ≤ table.field.max)
    (hmark : table.field.supports mark.bits) :
    table.isSet value mark.bits = .ok (table.carries value mark) := by
  rw [isSet, (table.check_eq_ok_iff value mark.bits).mpr ⟨hvalue, hmark⟩]
  rfl

theorem has_eq_ok (hvalue : table.field.min ≤ value ∧ value ≤ table.field.max)
    (hmark : table.field.supports mark.bits) :
    table.has value mark = .ok (table.carries value mark) := by
  rw [has, isSet_eq_ok hvalue hmark]
  rfl

/-- A mark is only found on a value of the field. -/
theorem mem_of_has {answer : Bool} (h : table.has value mark = .ok answer) :
    table.field.min ≤ value ∧ value ≤ table.field.max := by
  obtain ⟨_, hcheck, _⟩ := bind_eq_ok_iff.mp (mapError_eq_ok_iff.mp h)
  exact ((table.check_eq_ok_iff value mark.bits).mp hcheck).1

theorem firstPlain_eq {values : List Nat}
    (h : ∀ v ∈ values, table.field.min ≤ v ∧ v ≤ table.field.max) :
    table.firstPlain values = .ok (values.find? (table.carries · .plain)) := by
  induction values with
  | nil => rfl
  | cons value values ih =>
    have hrest := ih fun v hv => h v (List.mem_cons_of_mem _ hv)
    rw [firstPlain, isSet_eq_ok (h value List.mem_cons_self) (Field.supports_plain _),
      List.find?_cons]
    cases table.carries value .plain with
    | true => rfl
    | false => exact hrest

theorem next_eq (table : MarkTable) (start : Nat) :
    table.next start = .ok ((List.range' (Nat.max start table.field.min)
      (table.field.max + 1 - Nat.max start table.field.min)).find? (table.carries · .plain)) := by
  refine firstPlain_eq fun v hv => ?_
  have hle : table.field.min ≤ Nat.max start table.field.min := Nat.le_max_right _ _
  have := List.mem_range'_1.mp hv
  omega

theorem nextPlain_eq (table : MarkTable) (start : Nat) :
    table.nextPlain start = .ok ((List.range' (Nat.max start table.field.min)
      (table.field.max + 1 - Nat.max start table.field.min)).find? (table.carries · .plain)) := by
  rw [nextPlain, next_eq]
  rfl

/-- The next plain value is one, and no value from the start up to it is. -/
theorem nextPlain_eq_some {found : Nat} (h : table.nextPlain start = .ok (some found)) :
    start ≤ found ∧ table.has found .plain = .ok true ∧
      ∀ v, start ≤ v → v < found → table.has v .plain ≠ .ok true := by
  have hstart : start ≤ Nat.max start table.field.min := Nat.le_max_left _ _
  have hmin : table.field.min ≤ Nat.max start table.field.min := Nat.le_max_right _ _
  rw [nextPlain_eq, Except.ok.injEq, List.find?_range'_eq_some, List.mem_range'_1] at h
  obtain ⟨hcarries, hmem, hbelow⟩ := h
  refine ⟨by omega, ?_, ?_⟩
  · rw [has_eq_ok ⟨by omega, by omega⟩ (Field.supports_plain _), hcarries]
  · intro v hv hlt hhas
    have hdomain := mem_of_has hhas
    have hfrom : Nat.max start table.field.min ≤ v := Nat.max_le.mpr ⟨hv, hdomain.1⟩
    rw [has_eq_ok hdomain (Field.supports_plain _), Except.ok.injEq] at hhas
    have := hbelow v hfrom hlt
    rw [hhas] at this
    cases this

/-- Where there is no next plain value, no value from the start on is one. -/
theorem nextPlain_eq_none (h : table.nextPlain start = .ok none) {v : Nat} (hv : start ≤ v) :
    table.has v .plain ≠ .ok true := by
  intro hhas
  have hdomain := mem_of_has hhas
  have hfrom : Nat.max start table.field.min ≤ v := Nat.max_le.mpr ⟨hv, hdomain.1⟩
  rw [nextPlain_eq, Except.ok.injEq, List.find?_range'_eq_none] at h
  rw [has_eq_ok hdomain (Field.supports_plain _), Except.ok.injEq] at hhas
  have := h v hfrom (by omega)
  rw [hhas] at this
  cases this

end MarkTable

/-! ## Questions about a date -/

/-- The day of a date is one of the values of its field. -/
theorem Date.day_mem_field (date : Date) :
    Field.dayOfMonth.min ≤ date.day ∧ date.day ≤ Field.dayOfMonth.max :=
  ⟨date.day_mem.1, Nat.le_trans date.day_mem.2 (daysInMonth_le date.year date.month)⟩

namespace Pattern

variable {pattern : Pattern} {date : Date} {how : Mark}

/-- Asked for a value and a mark of its field, a table has an answer. -/
theorem Aligned.has_eq_ok (h : pattern.Aligned) (field : Field) {value : Nat}
    (hvalue : field.min ≤ value ∧ value ≤ field.max) (hmark : field.supports how.bits = true) :
    (pattern.table field).has value how = .ok ((pattern.table field).carries value how) := by
  rw [← h field] at hvalue hmark
  exact MarkTable.has_eq_ok hvalue hmark

/-- Nor does holding a part of the time of day against the end of its field get in the way. -/
theorem Aligned.hasUpTo_max (h : pattern.Aligned) (field : Field) (hmin : field.min = 0)
    {value : Nat} (hmax : value ≤ field.max) :
    (pattern.table field).hasUpTo field.max value =
      .ok ((pattern.table field).carries value .plain) := by
  rw [MarkTable.hasUpTo, if_neg (Nat.not_lt.mpr hmax)]
  exact h.has_eq_ok field ⟨hmin ▸ Nat.zero_le value, hmax⟩ (Field.supports_plain field)

theorem Aligned.has_day (h : pattern.Aligned) (date : Date) :
    pattern.days.has date.day .plain = .ok (pattern.days.carries date.day .plain) :=
  h.has_eq_ok .dayOfMonth date.day_mem_field (Field.supports_plain _)

theorem Aligned.has_weekday (h : pattern.Aligned) {weekday : Nat} (hweekday : weekday ≤ 7)
    (hmark : Field.dayOfWeek.supports how.bits = true) :
    pattern.weekdays.has weekday how = .ok (pattern.weekdays.carries weekday how) :=
  h.has_eq_ok .dayOfWeek ⟨Nat.zero_le _, hweekday⟩ hmark

theorem exists_matchesLastDay (pattern : Pattern) (h : date.year < lastYear) :
    ∃ b, pattern.matchesLastDay date = .ok b := by
  obtain ⟨next, hnext⟩ := Date.exists_nextMonth h
  unfold matchesLastDay Date.lastDayOfMonth?
  rw [hnext]
  split
  · exact ⟨_, rfl⟩
  · exact ⟨false, rfl⟩

theorem mem_nearDays {day near : Nat} (h : near ∈ nearDays day) : 1 ≤ near ∧ near ≤ 31 := by
  have hlo : 1 ≤ Nat.max (day - 2) 1 := Nat.le_max_right _ _
  have hhi : Nat.min (day + 2) 31 ≤ 31 := Nat.min_le_right _ _
  have := List.mem_range'_1.mp h
  omega

/-- Asking day by day finds a nearest working day among any days of the month. -/
theorem matchesNearest_eq_ok (h : pattern.Aligned) {days : List Nat}
    (hdays : ∀ day ∈ days, 1 ≤ day ∧ day ≤ 31) :
    pattern.matchesNearest date days = .ok (days.any fun day =>
      pattern.days.carries day .nearestWeekday &&
        nearestWorkdayOf? date day == some date.day) := by
  induction days with
  | nil => rfl
  | cons day days ih =>
    have hhas : pattern.days.has day .nearestWeekday =
        .ok (pattern.days.carries day .nearestWeekday) :=
      h.has_eq_ok .dayOfMonth (hdays day List.mem_cons_self) (by decide)
    rw [matchesNearest, hhas, ih fun d hd => hdays d (List.mem_cons_of_mem _ hd), andM_ok,
      orM_ok, List.any_cons]

theorem exists_matchesDayOfMonth (h : pattern.Aligned) (hyear : date.year < lastYear) :
    ∃ b, pattern.matchesDayOfMonth date = .ok b :=
  exists_orM ⟨_, h.has_day date⟩ (exists_orM (pattern.exists_matchesLastDay hyear)
    ⟨_, matchesNearest_eq_ok h fun _ hd => mem_nearDays hd⟩)

theorem matchesNth_eq_ok (h : pattern.Aligned) {weekday : Nat} (hweekday : weekday ≤ 7)
    (rank : Nat) (ks : List (Fin 5)) :
    pattern.matchesNth weekday rank ks =
      .ok (ks.any fun k => pattern.weekdays.carries weekday (.nth k) && rank == k) := by
  have hnth : ∀ k, Field.dayOfWeek.supports (Mark.nth k).bits = true := by decide
  induction ks with
  | nil => rfl
  | cons k ks ih =>
    rw [matchesNth, h.has_weekday hweekday (hnth k), ih, andM_ok, orM_ok, List.any_cons]

theorem exists_matchesDayOfWeek (h : pattern.Aligned) (hyear : date.year < lastYear) :
    ∃ b, pattern.matchesDayOfWeek date = .ok b := by
  have hweekday : date.weekday ≤ 7 := Nat.le_of_lt date.weekday_lt
  have hlast : ∃ b, isLastWeekday date = .ok b := by
    obtain ⟨next, hnext⟩ := Date.exists_nextMonth hyear
    unfold isLastWeekday Date.isLastWeekday?
    rw [hnext]
    split
    · exact ⟨_, rfl⟩
    · rename_i hnone
      split at hnone
      · cases hnone
      · cases hnone
  exact exists_orM ⟨_, h.has_weekday hweekday (Field.supports_plain _)⟩
    (exists_orM ⟨_, matchesNth_eq_ok h hweekday _ _⟩
      (exists_andM ⟨_, h.has_weekday hweekday (by decide)⟩ hlast))

/-- Before the last year of the calendar every date either matches or does not. -/
theorem exists_matchesDate (h : pattern.Aligned) (hyear : date.year < lastYear) :
    ∃ b, pattern.matchesDate date = .ok b := by
  obtain ⟨day, hday⟩ := exists_matchesDayOfMonth h hyear
  obtain ⟨weekday, hweekday⟩ := exists_matchesDayOfWeek h hyear
  refine ⟨pattern.dayRule.holds day weekday, ?_⟩
  rw [matchesDate, hday, hweekday]
  rfl

theorem exists_matchesMonth (h : pattern.Aligned) (date : Date) :
    ∃ b, pattern.matchesMonth date.month = .ok b := by
  have hmonth := date.month_mem
  rw [matchesMonth, if_neg (by omega)]
  exact ⟨_, h.has_eq_ok .month hmonth (Field.supports_plain _)⟩

end Pattern
end CronSchedule
