import CronSchedule.Proofs.Schedule.TokenMeaning
import CronSchedule.Proofs.Text.Words

/-! # What a parsed pattern holds

Matching and searching take for granted how parsing fills a pattern, and check none of it
again.  `Pattern.Represents` says it in full: the text without the blanks around it, the
words as tokens, and in each table only the marks that its field can carry once Sunday has
been moved (`Field.Admits`).

The text part follows from how words and gaps make up a text, the marks from the bounds that
each operation on a table keeps and from what the elements of a day denote.  Both together
are `represents_of_parseWith`, which also says that seconds not written are a written zero.
-/
namespace CronSchedule

open Text

/-! ## Texts and tokens -/

namespace Pattern

variable {options other : ParseOptions} {expression : String} {pattern : Pattern}
  {text : List Char} {tokens : List (List Char)}

/-- The text, the tokens and how the days combine show in no table. -/
theorem table_update (pattern : Pattern) (text : String) (tokens : List String)
    (bothDays : Bool) (field : Field) :
    { pattern with text, tokens, bothDays }.table field = pattern.table field := by
  cases field <;> rfl

/-- Nor do the tables depend on them: they are those of the five words and the seconds. -/
theorem assemble_congr {bothDays : Bool} {seconds : MarkTable}
    {minute hour day month weekday : List Char}
    (h : assemble bothDays text tokens seconds minute hour day month weekday = .ok pattern)
    (bothDays' : Bool) (text' : List Char) (tokens' : List (List Char)) :
    assemble bothDays' text' tokens' seconds minute hour day month weekday =
      .ok { pattern with
        text := String.ofList text'
        tokens := tokens'.map String.ofList
        bothDays := bothDays' } := by
  rw [assemble_eq] at h ⊢
  obtain ⟨minutes, hminutes, h⟩ := bind_eq_ok_iff.mp h
  obtain ⟨hours, hhours, h⟩ := bind_eq_ok_iff.mp h
  obtain ⟨days, hdays, h⟩ := bind_eq_ok_iff.mp h
  obtain ⟨months, hmonths, h⟩ := bind_eq_ok_iff.mp h
  obtain ⟨weekdays, hweekdays, h⟩ := bind_eq_ok_iff.mp h
  cases h
  rw [hminutes, hhours, hdays, hmonths, hweekdays]
  rfl

/-- What `ofWords` keeps of its arguments, and that it takes as many words as the mode. -/
theorem ofWords_inv (h : ofWords options text tokens = .ok pattern) :
    pattern.text = String.ofList text ∧ pattern.tokens = tokens.map String.ofList ∧
      pattern.bothDays = options.bothDays ∧ options.seconds.accepts tokens.length = true := by
  have hkeeps : ∀ {bothDays : Bool} {seconds : MarkTable} {minute hour day month weekday},
      assemble bothDays text tokens seconds minute hour day month weekday = .ok pattern →
        pattern.text = String.ofList text ∧ pattern.tokens = tokens.map String.ofList ∧
          pattern.bothDays = bothDays := by
    intro bothDays seconds minute hour day month weekday hassemble
    have hsame := hassemble.symm.trans (assemble_congr hassemble bothDays text tokens)
    rw [Except.ok.injEq] at hsame
    rw [hsame]
    exact ⟨rfl, rfl, rfl⟩
  unfold ofWords at h
  split at h
  · rename_i haccepts
    rw [MarkTable.bind_defaultSeconds] at h
    -- five words, six words, and any other number
    split at h
    · obtain ⟨htext, htokens, hboth⟩ := hkeeps h
      exact ⟨htext, htokens, hboth, haccepts⟩
    · obtain ⟨seconds, -, h⟩ := bind_eq_ok_iff.mp h
      obtain ⟨htext, htokens, hboth⟩ := hkeeps h
      exact ⟨htext, htokens, hboth, haccepts⟩
    · cases h
  · cases h

/-- Other options that take as many words give the same pattern but for how days combine. -/
theorem ofWords_of_accepts (h : ofWords options text tokens = .ok pattern)
    (haccepts : other.seconds.accepts tokens.length = true) :
    ofWords other text tokens = .ok { pattern with bothDays := other.bothDays } := by
  obtain ⟨htext, htokens, -, hmode⟩ := ofWords_inv h
  have hpattern : { pattern with bothDays := other.bothDays } =
      { pattern with
        text := String.ofList text
        tokens := tokens.map String.ofList
        bothDays := other.bothDays } := by rw [← htext, ← htokens]
  rw [hpattern]
  unfold ofWords at h ⊢
  rw [if_pos hmode, MarkTable.bind_defaultSeconds] at h
  rw [if_pos haccepts, MarkTable.bind_defaultSeconds]
  split at h
  · exact assemble_congr h _ _ _
  · obtain ⟨seconds, hseconds, h⟩ := bind_eq_ok_iff.mp h
    exact bind_eq_ok_iff.mpr ⟨seconds, hseconds, assemble_congr h _ _ _⟩
  · cases h

/-- Five words after a zero have the tables that they have alone. -/
theorem ofWords_zero_cons (h : ofWords options text tokens = .ok pattern)
    (hfive : tokens.length = 5) (haccepts : options.seconds.accepts 6 = true)
    (text' : List Char) : ofWords options text' (['0'] :: tokens) =
      .ok { pattern with
        text := String.ofList text'
        tokens := (['0'] :: tokens).map String.ofList } := by
  obtain ⟨-, -, hboth, hmode⟩ := ofWords_inv h
  have hzero : MarkTable.parse .second ['0'] = .ok .zeroSeconds := by decide
  unfold ofWords at h ⊢
  rw [if_pos hmode, MarkTable.bind_defaultSeconds] at h
  rw [List.length_cons, hfive, if_pos haccepts, MarkTable.bind_defaultSeconds]
  match tokens, hfive with
  | [minute, hour, day, month, weekday], _ =>
    refine bind_eq_ok_iff.mpr ⟨_, hzero, ?_⟩
    rw [assemble_congr h options.bothDays, ← hboth]

/-- An expression that parses is trimmed to a text that consists of its words, and these are
parsed. -/
theorem parse_inv (h : Pattern.parse options expression = .ok pattern) :
    Separated (trim expression.toList) (wordsOf expression) ∧
      ofWords options (trim expression.toList) (wordsOf expression) = .ok pattern := by
  unfold Pattern.parse at h
  simp only at h
  split at h
  · cases h
  · rename_i hne
    have hseparated := separated_words hne
    rw [← words_trim] at hseparated
    exact ⟨hseparated, h⟩

theorem parse_eq_ofWords {pieces : List (List Char)}
    (h : Separated (trim expression.toList) pieces) :
    Pattern.parse options expression = ofWords options (trim expression.toList) pieces := by
  unfold Pattern.parse
  simp only
  rw [if_neg h.ne_nil, h.words_eq]

/-- A word, a gap and the text of an expression are the word and its words. -/
theorem separated_cons {word gap : List Char} (hword : IsWord word) (hgap : IsGap gap)
    (h : Separated (trim expression.toList) tokens) :
    Separated (trim (word ++ (gap ++ expression.toList))) (word :: tokens) := by
  have hwords : words (word ++ (gap ++ expression.toList)) = word :: tokens := by
    rw [words_append_gap hword hgap, ← words_trim, h.words_eq]
  rw [← hwords]
  refine separated_words fun hnil => ?_
  have hnone : words (word ++ (gap ++ expression.toList)) = [] := by
    rw [← words_trim, hnil]
    rfl
  rw [hwords] at hnone
  cases hnone

end Pattern

/-! ## Marks -/

namespace Field

/-- Which marks a value of a field can carry in a pattern. -/
def Admits : Field → Nat → Mark → Prop
  | .dayOfMonth, value, how => (1 ≤ value ∧ value ≤ 31) ∧ (how = .plain ∨ how = .nearestWeekday)
  | .dayOfWeek, value, how => value ≤ 6 ∧ how ≠ .nearestWeekday
  | field, value, how => (field.min ≤ value ∧ value ≤ field.max) ∧ how = .plain

/-- Only the day fields have marks other than the plain one. -/
theorem eq_plain_of_supports {field : Field} {how : Mark} (hdays : field ≠ .dayOfMonth)
    (hweekdays : field ≠ .dayOfWeek) (h : field.supports how.bits = true) : how = .plain := by
  have hnth : ∀ k, Field.second.supports (Mark.nth k).bits = false := by decide
  cases how with
  | plain => rfl
  | nth k =>
    cases field with
    | dayOfMonth => exact absurd rfl hdays
    | dayOfWeek => exact absurd rfl hweekdays
    | _ => exact absurd ((hnth k).symm.trans h) Bool.false_ne_true
  | last | nearestWeekday =>
    cases field with
    | dayOfMonth => exact absurd rfl hdays
    | dayOfWeek => exact absurd rfl hweekdays
    | _ => exact absurd h (by decide)

end Field

namespace MarkTable

variable {table : MarkTable} {field : Field} {token : List Char} {value : Nat} {how : Mark}

/-- No day of the month is the last one by its number. -/
theorem not_last_of_parse (h : MarkTable.parse .dayOfMonth token = .ok table) :
    table.carries value .last = false := by
  have hmark : ∀ {suffix : List Char} {mark : Mark}, MarkText .dayOfMonth suffix mark →
      Mark.last ≠ mark := by
    intro suffix mark hmark
    cases hmark
    exact nofun
  rw [← Bool.not_eq_true, (adds_of_parse h).2.carries, carries_empty]
  rintro (hfalse | ⟨-, -, hplain⟩ | ⟨text, -, element, hdenotes, hsays⟩)
  · cases hfalse
  · cases hplain
  · cases hdenotes with
    | single _ hsuffix => exact hmark hsuffix hsays.2
    | range _ hsuffix => exact hmark hsuffix hsays.2
    | lastDay => exact hsays
    | wholeStepped | steppedFrom | steppedBetween | nearestWeekday => cases hsays.2

/-- The last day of the month is the only mark of a field as a whole. -/
theorem enabled_of_parse (h : MarkTable.parse field token = .ok table)
    (henabled : table.isEnabled how.bits = true) : field = .dayOfMonth ∧ how = .last := by
  rw [(adds_of_parse h).2.enabled, isEnabled_empty] at henabled
  rcases henabled with hfalse | ⟨hlast, hfield, -⟩
  · cases hfalse
  · exact ⟨hfield, hlast⟩

/-- The table of an accepted token carries admitted marks, once it is settled. -/
theorem admits_of_parse (h : MarkTable.parse field token = .ok table)
    (hcarries : (Pattern.settle field table).carries value how = true) :
    field.Admits value how := by
  have hbounded := bounded_of_parse h
  have hfield := field_of_parse h
  have hnth : ∀ k, Field.dayOfMonth.supports (Mark.nth k).bits = false := by decide
  cases field with
  | dayOfMonth =>
    -- the field supports `L`, but only as a whole
    obtain ⟨hvalue, hsupports⟩ := hbounded.of_carries hcarries
    rw [hfield] at hvalue hsupports
    refine ⟨hvalue, ?_⟩
    cases how with
    | plain => exact .inl rfl
    | nearestWeekday => exact .inr rfl
    | last =>
      rw [show (Pattern.settle .dayOfMonth table) = table from rfl, not_last_of_parse h] at hcarries
      cases hcarries
    | nth k => exact absurd ((hnth k).symm.trans hsupports) Bool.false_ne_true
  | dayOfWeek =>
    have hsettle : Pattern.settle .dayOfWeek table = table.folded := rfl
    obtain ⟨hvalue, hsupports⟩ := (hbounded.folded hfield).of_carries (hsettle ▸ hcarries)
    rw [hsettle, carries_folded hbounded.complete hfield] at hcarries
    rw [show table.folded.field = table.field from rfl, hfield] at hvalue hsupports
    -- 7 is of the field, and carries nothing once its marks have moved
    have hle : value ≤ 7 := hvalue.2
    refine ⟨by omega, ?_⟩
    rintro rfl
    exact absurd hsupports (by decide)
  | second | minute | hour | month =>
    obtain ⟨hvalue, hsupports⟩ := hbounded.of_carries hcarries
    rw [hfield] at hvalue hsupports
    exact ⟨hvalue, Field.eq_plain_of_supports (by decide) (by decide) hsupports⟩

end MarkTable

/-! ## The whole pattern -/

/-- Whether a pattern holds an expression the way that parsing stores it. -/
structure Pattern.Represents (pattern : Pattern) (expression : List Char) : Prop where
  /-- The text is the expression without blanks at either end. -/
  text : ∃ before after, expression = before ++ (pattern.text.toList ++ after) ∧
    (∀ c ∈ before, isBlank c = true) ∧ ∀ c ∈ after, isBlank c = true
  /-- The text consists of the tokens, with gaps between them. -/
  tokens : Separated pattern.text.toList (pattern.tokens.map String.toList)
  count : pattern.tokens.length = 5 ∨ pattern.tokens.length = 6
  /-- Every table is one of its field, with an entry for each value. -/
  tables : ∀ field, (pattern.table field).field = field ∧ (pattern.table field).Complete
  marks : ∀ field value how, (pattern.table field).carries value how = true →
    field.Admits value how
  /-- Only the last day of the month holds for a field as a whole. -/
  features : ∀ (field : Field) (how : Mark), (pattern.table field).isEnabled how.bits = true →
    field = .dayOfMonth ∧ how = .last
  fullDays : pattern.days.isFull = true ↔
    ∀ day, 1 ≤ day → day ≤ 31 → pattern.days.carries day .plain = true
  fullWeekdays : pattern.weekdays.isFull = true ↔
    ∀ weekday, weekday ≤ 6 → pattern.weekdays.carries weekday .plain = true

namespace Pattern

variable {options : ParseOptions} {expression : String} {pattern : Pattern}

/-- A table of a pattern comes from a token, or it is that of the seconds not written. -/
theorem exists_parse_or_zeroSeconds (h : Pattern.parse options expression = .ok pattern)
    (field : Field) :
    (∃ token table, MarkTable.parse field token = .ok table ∧
      pattern.table field = settle field table) ∨
    field = .second ∧ pattern.table field = .zeroSeconds := by
  obtain ⟨htokens, hfields, hseconds⟩ := exists_parse_of_parse h
  rcases hfields field with ⟨token, hmem⟩ | ⟨rfl, hfew⟩
  · obtain ⟨table, hparse, htable⟩ := htokens field token hmem
    exact .inl ⟨token.toList, table, hparse, htable⟩
  · exact .inr ⟨rfl, hseconds hfew⟩

theorem complete_settle {field : Field} {token : List Char} {table : MarkTable}
    (h : MarkTable.parse field token = .ok table) : (settle field table).Complete := by
  have hbounded := MarkTable.bounded_of_parse h
  unfold settle
  split
  · rename_i hfield
    exact (hbounded.folded ((MarkTable.field_of_parse h).trans hfield)).complete
  · exact hbounded.complete

theorem complete_of_parse (h : Pattern.parse options expression = .ok pattern) (field : Field) :
    (pattern.table field).Complete := by
  rcases exists_parse_or_zeroSeconds h field with ⟨token, table, hparse, htable⟩ | ⟨rfl, htable⟩
  · rw [htable]
    exact complete_settle hparse
  · rw [htable]
    exact MarkTable.bounded_zeroSeconds.complete

/-- A table of a parsed pattern carries admitted marks only. -/
theorem admits_of_carries (h : Pattern.parse options expression = .ok pattern) {field : Field}
    {value : Nat} {how : Mark} (hcarries : (pattern.table field).carries value how = true) :
    field.Admits value how := by
  rcases exists_parse_or_zeroSeconds h field with ⟨token, table, hparse, htable⟩ | ⟨rfl, htable⟩
  · rw [htable] at hcarries
    exact MarkTable.admits_of_parse hparse hcarries
  · rw [htable, MarkTable.carries_zeroSeconds] at hcarries
    obtain ⟨rfl, rfl⟩ := hcarries
    exact ⟨⟨Nat.le_refl 0, Nat.zero_le 59⟩, rfl⟩

theorem eq_last_of_isEnabled (h : Pattern.parse options expression = .ok pattern) {field : Field}
    {how : Mark} (henabled : (pattern.table field).isEnabled how.bits = true) :
    field = .dayOfMonth ∧ how = .last := by
  rcases exists_parse_or_zeroSeconds h field with ⟨token, table, hparse, htable⟩ | ⟨rfl, htable⟩
  · rw [htable, settle] at henabled
    split at henabled
    · exact MarkTable.enabled_of_parse hparse henabled
    · exact MarkTable.enabled_of_parse hparse henabled
  · have hnone : MarkTable.zeroSeconds.isEnabled how.bits = false :=
      MarkTable.isEnabled_empty .second how
    rw [htable, hnone] at henabled
    cases henabled

theorem represents_of_parse (h : Pattern.parse options expression = .ok pattern) :
    pattern.Represents expression.toList := by
  have haligned := aligned_of_parse h
  have hcomplete := complete_of_parse h
  obtain ⟨hseparated, hwords⟩ := parse_inv h
  obtain ⟨htext, htokens, -, haccepts⟩ := ofWords_inv hwords
  have htext' : pattern.text.toList = trim expression.toList := by
    rw [htext, String.toList_ofList]
  have htokens' : pattern.tokens.map String.toList = wordsOf expression := by
    rw [htokens, List.map_map]
    exact List.map_id'' (fun _ => String.toList_ofList) _
  have hdays : pattern.days.field = .dayOfMonth := haligned .dayOfMonth
  have hweekdays : pattern.weekdays.field = .dayOfWeek := haligned .dayOfWeek
  refine {
    text := ?_
    tokens := by rw [htext', htokens']; exact hseparated
    count := by
      have hlength : pattern.tokens.length = (wordsOf expression).length := by
        rw [htokens, List.length_map]
      rw [hlength]
      exact SecondsMode.eq_of_accepts haccepts
    tables := fun field => ⟨haligned field, hcomplete field⟩
    marks := fun _ _ _ => admits_of_carries h
    features := fun _ _ => eq_last_of_isEnabled h
    fullDays := ?_
    fullWeekdays := ?_ }
  · obtain ⟨before, after, htrim, hbefore, hafter, -⟩ := exists_append_trim expression.toList
    exact ⟨before, after, htext' ▸ htrim, hbefore, hafter⟩
  · have hcompleteDays : pattern.days.Complete := hcomplete .dayOfMonth
    rw [MarkTable.isFull_iff hcompleteDays, hdays]
    rfl
  · have hcompleteWeekdays : pattern.weekdays.Complete := hcomplete .dayOfWeek
    rw [MarkTable.isFull_iff hcompleteWeekdays, hweekdays]
    exact ⟨fun hall weekday => hall weekday (Nat.zero_le _), fun hall weekday _ => hall weekday⟩

/-- How the days combine is read from whether the day fields are full. -/
theorem dayRule_congr {a b : Pattern} (hdays : a.days.isFull = b.days.isFull)
    (hweekdays : a.weekdays.isFull = b.weekdays.isFull) (hboth : a.bothDays = b.bothDays) :
    a.dayRule = b.dayRule := by
  rw [dayRule, dayRule, hdays, hweekdays, hboth]

theorem dayRule_eq_of_tables {a b : Pattern} (htables : ∀ field, a.table field = b.table field)
    (hboth : a.bothDays = b.bothDays) : a.dayRule = b.dayRule :=
  dayRule_congr (congrArg MarkTable.isFull (htables .dayOfMonth))
    (congrArg MarkTable.isFull (htables .dayOfWeek)) hboth

end Pattern

namespace Schedule

open Pattern

variable {options : ParseOptions} {expression : String} {schedule : Schedule}

theorem bothDays_of_parseWith (h : parseWith options expression = .ok schedule) :
    schedule.pattern.bothDays = options.bothDays := by
  obtain ⟨pattern, hpattern, rfl⟩ := map_eq_ok_iff.mp h
  exact (ofWords_inv (parse_inv hpattern).2).2.2.1

/-- **What a parsed pattern holds.**  A pattern that parsing builds holds its expression: the
trimmed text, its five or six words, and in each table only marks that the field admits.
Where the options take six words as well, five words have the tables that they have after a
zero for the seconds. -/
theorem represents_of_parseWith (hparse : parseWith options expression = .ok schedule) :
    schedule.pattern.Represents expression.toList ∧
    (schedule.pattern.tokens.length = 5 → options.seconds.accepts 6 = true →
      ∀ gap, IsGap gap → ∃ other,
        parseWith options (String.ofList ('0' :: (gap ++ expression.toList))) = .ok other ∧
        (∀ field, other.pattern.table field = schedule.pattern.table field) ∧
        other.pattern.days.isFull = schedule.pattern.days.isFull ∧
        other.pattern.weekdays.isFull = schedule.pattern.weekdays.isFull) := by
  obtain ⟨pattern, hpattern, rfl⟩ := map_eq_ok_iff.mp hparse
  refine ⟨represents_of_parse hpattern, fun hfive haccepts gap hgap => ?_⟩
  obtain ⟨hseparated, hwords⟩ := parse_inv hpattern
  have hlength : (wordsOf expression).length = 5 := by
    rw [← hfive, (ofWords_inv hwords).2.1, List.length_map]
  have hzero : Separated (trim (String.ofList ('0' :: (gap ++ expression.toList))).toList)
      (['0'] :: wordsOf expression) := by
    have hword : IsWord ['0'] := ⟨List.cons_ne_nil _ _, List.forall_mem_singleton.mpr rfl⟩
    rw [String.toList_ofList]
    exact separated_cons hword hgap hseparated
  exact ⟨_, map_eq_ok_iff.mpr ⟨_, (parse_eq_ofWords hzero).trans
    (ofWords_zero_cons hwords hlength haccepts _), rfl⟩, table_update pattern _ _ _, rfl, rfl⟩

/-- Day marks of every kind, between odd blanks. -/
theorem represents_of_parseWith_marked_days :
    ∃ schedule, parseWith {} "  */5\t0  15W,L * MON#2,7L " = .ok schedule ∧
      schedule.pattern.tokens.length = 5 ∧
      schedule.pattern.Represents "  */5\t0  15W,L * MON#2,7L ".toList ∧
      SecondsMode.optional.accepts 6 = true ∧ IsGap [' '] ∧ ∃ other,
        parseWith {} (String.ofList ('0' :: ([' '] ++ "  */5\t0  15W,L * MON#2,7L ".toList))) =
          .ok other ∧
        (∀ field, other.pattern.table field = schedule.pattern.table field) ∧
        other.pattern.days.isFull = schedule.pattern.days.isFull ∧
        other.pattern.weekdays.isFull = schedule.pattern.weekdays.isFull := by
  obtain ⟨schedule, hparse, hfive⟩ := map_eq_ok_iff.mp
    (show (parseWith {} "  */5\t0  15W,L * MON#2,7L ").map (·.pattern.tokens.length) = .ok 5
      by decide +kernel)
  have hgap : IsGap [' '] := ⟨List.cons_ne_nil _ _, List.forall_mem_singleton.mpr rfl⟩
  obtain ⟨hrepresents, hzero⟩ := represents_of_parseWith hparse
  exact ⟨schedule, hparse, hfive, hrepresents, rfl, hgap, hzero hfive rfl _ hgap⟩

end Schedule
end CronSchedule
