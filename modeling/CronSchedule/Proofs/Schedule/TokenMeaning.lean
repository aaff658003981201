import CronSchedule.Proofs.Schedule.Acceptance

/-! # What an accepted token means

The table of a field is built from its token and from nothing else
(`Pattern.exists_parse_of_parse`), and it carries the union of what the elements of the
token denote (`adds_of_parse`).  For a token without names these are the elements as they
are written.  `table_accounts_for_token` says so of every field of every accepted
expression.

A token is also taken apart before its names are replaced: a field parses it when it takes each
of its elements (`parses_iff_takes`).
-/
namespace CronSchedule

open Text

/-! ## The tokens of an expression -/

namespace Pattern

variable {pattern : Pattern} {field : Field}

/-- The table that a field has in a pattern: that of the weekdays is folded. -/
def settle (field : Field) (table : MarkTable) : MarkTable :=
  if field = .dayOfWeek then table.folded else table

theorem field_settle (field : Field) (table : MarkTable) :
    (settle field table).field = table.field := by
  unfold settle
  split
  · rfl
  · rfl

/-- A pattern is put together from the tables of its five or six tokens. -/
theorem exists_parse_of_assemble {bothDays : Bool} {text : List Char} {tokens : List (List Char)}
    {seconds : MarkTable} {minute hour day month weekday : List Char}
    (h : assemble bothDays text tokens seconds minute hour day month weekday = .ok pattern) :
    (pattern.tokens = tokens.map String.ofList ∧ pattern.seconds = seconds) ∧
      ∀ entry ∈ Field.withoutSeconds.zip [minute, hour, day, month, weekday],
        ∃ table, MarkTable.parse entry.1 entry.2 = .ok table ∧
          pattern.table entry.1 = settle entry.1 table := by
  rw [assemble_eq] at h
  obtain ⟨minutes, hminutes, h⟩ := bind_eq_ok_iff.mp h
  obtain ⟨hours, hhours, h⟩ := bind_eq_ok_iff.mp h
  obtain ⟨days, hdays, h⟩ := bind_eq_ok_iff.mp h
  obtain ⟨months, hmonths, h⟩ := bind_eq_ok_iff.mp h
  obtain ⟨weekdays, hweekdays, h⟩ := bind_eq_ok_iff.mp h
  cases h
  refine ⟨⟨rfl, rfl⟩, ?_⟩
  simp only [Field.withoutSeconds, List.zip_cons_cons, List.zip_nil_right, List.forall_mem_cons]
  exact ⟨⟨minutes, hminutes, rfl⟩, ⟨hours, hhours, rfl⟩, ⟨days, hdays, rfl⟩,
    ⟨months, hmonths, rfl⟩, ⟨weekdays, hweekdays, rfl⟩, List.forall_mem_nil _⟩

theorem exists_parse_of_fieldTokens {fields : List Field} {tokens : List (List Char)}
    (hfields : pattern.fieldTokens = fields.zip (tokens.map String.ofList))
    (hparse : ∀ entry ∈ fields.zip tokens, ∃ table, MarkTable.parse entry.1 entry.2 = .ok table ∧
      pattern.table entry.1 = settle entry.1 table)
    (field : Field) (token : String) (hmem : (field, token) ∈ pattern.fieldTokens) :
    ∃ table, MarkTable.parse field token.toList = .ok table ∧
      pattern.table field = settle field table := by
  rw [hfields, List.zip_map_right, List.mem_map] at hmem
  obtain ⟨entry, hentry, heq⟩ := hmem
  cases heq
  simp only [id_eq, String.toList_ofList]
  exact hparse entry hentry

/-- Every field has a token that its table is read from.  Only the seconds may lack one. -/
theorem exists_parse_of_parse {options : ParseOptions} {expression : String}
    (h : Pattern.parse options expression = .ok pattern) :
    (∀ field token, (field, token) ∈ pattern.fieldTokens →
      ∃ table, MarkTable.parse field token.toList = .ok table ∧
        pattern.table field = settle field table) ∧
    (∀ field, (∃ token, (field, token) ∈ pattern.fieldTokens) ∨
      field = .second ∧ pattern.hasSeconds = false) ∧
    (pattern.hasSeconds = false → pattern.seconds = .zeroSeconds) := by
  unfold Pattern.parse at h
  simp only at h
  split at h
  · cases h
  · unfold ofWords at h
    split at h
    · rw [MarkTable.bind_defaultSeconds] at h
      split at h
      · rename_i minute hour day month weekday hwords
        rw [hwords] at h
        obtain ⟨⟨htokens, hseconds⟩, hparse⟩ := exists_parse_of_assemble h
        have hfew : pattern.hasSeconds = false := by rw [hasSeconds, htokens]; rfl
        have hfields : pattern.fieldTokens = Field.withoutSeconds.zip
            ([minute, hour, day, month, weekday].map String.ofList) := by
          rw [fieldTokens, hfew, htokens]
          rfl
        refine ⟨exists_parse_of_fieldTokens hfields hparse, fun field => ?_, fun _ => hseconds⟩
        rw [hfields]
        cases field with
        | second => exact .inr ⟨rfl, hfew⟩
        | _ => exact .inl (by simp [Field.withoutSeconds])
      · rename_i second minute hour day month weekday hwords
        rw [hwords] at h
        obtain ⟨seconds, hsecond, h⟩ := bind_eq_ok_iff.mp h
        obtain ⟨⟨htokens, hseconds⟩, hparse⟩ := exists_parse_of_assemble h
        have hmany : pattern.hasSeconds = true := by rw [hasSeconds, htokens]; rfl
        have hfields : pattern.fieldTokens = Field.all.zip
            ([second, minute, hour, day, month, weekday].map String.ofList) := by
          rw [fieldTokens, hmany, htokens]
          rfl
        refine ⟨exists_parse_of_fieldTokens hfields ?_, fun field => ?_, fun hfew => ?_⟩
        · exact List.forall_mem_cons.mpr ⟨⟨seconds, hsecond, hseconds⟩, hparse⟩
        · rw [hfields]
          cases field <;> exact .inl (by simp [Field.all])
        · rw [hmany] at hfew
          cases hfew
      · cases h
    · cases h

end Pattern

/-! ## What a token says -/

namespace MarkTable

variable {field : Field} {token : List Char} {table : MarkTable}

/-- What a normalized token says: that all values of the field match when it is a star, and
else what its elements say. -/
def WordSays (field : Field) (word : List Char) (value : Nat) (how : Mark) : Prop :=
  (word = ['*'] ∧ (field.min ≤ value ∧ value ≤ field.max) ∧ how = .plain) ∨
    ∃ text ∈ word.splitOn ',', ∃ element, Denotes field text element ∧
      element.Says field value how

theorem not_denotes_star {element : Element} : ¬ Denotes field ['*'] element := by
  intro h
  have hread := Element.read_of_denotes h
  cases field <;> cases hread

/-- A star adds all values of its field, each with a plain mark. -/
theorem adds_of_star (h : (empty field).enterToken ['*'] = (table, none)) :
    (empty field).Adds table (WordSays field ['*']) fun how =>
      how = .last ∧ field = .dayOfMonth ∧ ['L'] ∈ ['*'].splitOn ',' := by
  rw [enterToken, if_pos rfl] at h
  cases hset : (empty field).setAll Mark.plain.bits (domain (empty field).field) with
  | error fault =>
    rw [hset] at h
    cases h
  | ok result =>
    rw [hset] at h
    cases h
    refine (adds_of_setAll (complete_empty field) hset).congr ?_ ?_
    · intro value how
      have hdomain : value ∈ domain field ↔ field.min ≤ value ∧ value ≤ field.max := by
        have := field.min_le_max
        rw [domain, List.mem_range'_1]
        omega
      have hnone : ¬ ∃ text ∈ ['*'].splitOn ',', ∃ element, Denotes field text element ∧
          element.Says field value how := by
        rintro ⟨text, htext, element, hdenotes, -⟩
        obtain rfl := List.mem_singleton.mp htext
        exact not_denotes_star hdenotes
      rw [field_empty, hdomain, WordSays, or_iff_left hnone, and_iff_right rfl]
    · intro how
      simp [show ¬ ['L'] ∈ ['*'].splitOn ',' by decide]

/-- The elements of another word add what they denote. -/
theorem adds_of_elements {word : List Char} (hstar : word ≠ ['*'])
    (hread : ∀ text ∈ word.splitOn ',', ∀ element,
      Element.read field text = .ok element ↔ Denotes field text element)
    (h : (empty field).enterTexts (word.splitOn ',') = (table, none)) :
    (empty field).Adds table (WordSays field word) fun how =>
      how = .last ∧ field = .dayOfMonth ∧ ['L'] ∈ word.splitOn ',' := by
  refine (adds_of_enterTexts (complete_empty field) h).congr ?_ ?_
  · intro value how
    rw [WordSays, or_iff_right fun hboth => hstar hboth.1]
    refine exists_congr fun text => and_congr_right fun htext => exists_congr fun element => ?_
    rw [field_empty, hread text htext element]
    exact and_congr_right fun hdenotes => hdenotes.says_iff.symm
  · intro how
    refine and_congr_right fun _ => ?_
    rw [field_empty]
    constructor
    · rintro ⟨text, htext, hok⟩
      cases (hread text htext _).mp hok with
      | lastDay hfield => exact ⟨hfield, htext⟩
    · rintro ⟨hfield, hmem⟩
      exact ⟨['L'], hmem, Element.read_of_denotes (.lastDay hfield)⟩

/-- An accepted token adds to an empty table what it says.  A star apart, each of its
elements denotes something. -/
theorem adds_of_parse (h : MarkTable.parse field token = .ok table) :
    (field.normalize token = ['*'] ∨
      ∀ text ∈ (field.normalize token).splitOn ',', ∃ element, Denotes field text element) ∧
    (empty field).Adds table (WordSays field (field.normalize token)) fun how =>
      how = .last ∧ field = .dayOfMonth ∧ ['L'] ∈ (field.normalize token).splitOn ',' := by
  obtain ⟨hallows, h⟩ := parse_eq_ok_iff.mp h
  generalize field.normalize token = word at h hallows
  by_cases hstar : word = ['*']
  · subst hstar
    exact ⟨.inl rfl, adds_of_star h⟩
  · rw [enterToken, if_neg hstar] at h
    have hread : ∀ text ∈ word.splitOn ',', ∀ element,
        Element.read field text = .ok element ↔ Denotes field text element :=
      fun text htext element => Field.read_eq_ok_iff_of_allows fun c hc =>
        hallows c (mem_of_mem_splitOn htext hc)
    refine ⟨.inr fun text htext => ?_, adds_of_elements hstar hread h⟩
    have hnone : ((empty field).enterTexts (word.splitOn ',')).2 = none := by rw [h]
    obtain ⟨element, hok, -⟩ := enterTexts_eq_none_iff.mp hnone text htext
    exact ⟨element, (hread text htext element).mp hok⟩

end MarkTable

/-! ## Elements one by one -/

section Elements

variable {field : Field} {token : List Char}

/-- Only a lone star or question mark is read as a star. -/
theorem Field.isLone_of_normalize (h : field.normalize token = ['*']) :
    token = ['*'] ∨ token = ['?'] := by
  unfold Field.normalize at h
  split at h
  · rename_i hquestion
    exact .inr hquestion.2
  · have hpieces : ((upper token).splitOn ',').map field.resolve = [['*']] := by
      rw [← Field.splitOn_replaceAliases, h]
      rfl
    obtain ⟨element, hsplit, hresolve⟩ := List.map_eq_singleton_iff.mp hpieces
    have hupper : (upper token).splitOn ',' = ['*'].splitOn ',' := by
      rw [hsplit, Field.eq_star_of_resolve hresolve]
      rfl
    exact .inl (eq_singleton_of_upper (by decide) (eq_of_splitOn_eq hupper))

/-- Whether a field takes an element, once its names are replaced. -/
structure Field.Takes (field : Field) (text : List Char) : Prop where
  allowed : ∀ c ∈ field.resolve text, field.allows c = true
  denotes : ∃ element, Denotes field (field.resolve text) element ∧ element.Fits field

theorem Field.splitOn_normalize (h : token ≠ ['?']) :
    (field.normalize token).splitOn ',' = ((upper token).splitOn ',').map field.resolve := by
  rw [normalize, if_neg fun hquestion => h hquestion.2, splitOn_replaceAliases]

/-- A word is accepted when its field takes all elements of its list, or it is a lone star or
question mark. -/
theorem parses_iff_takes (hlone : ¬ (token = ['*'] ∨ token = ['?'])) :
    Pattern.Parses field token ↔ ∀ text ∈ (upper token).splitOn ',', field.Takes text := by
  have hquestion : token ≠ ['?'] := fun heq => hlone (.inr heq)
  have hsplit : (field.normalize token).splitOn ',' = _ := Field.splitOn_normalize hquestion
  rw [Pattern.Parses, MarkTable.exists_parse_iff_reads,
    or_iff_right (mt Field.isLone_of_normalize hlone), hsplit, List.forall_mem_map]
  constructor
  · rintro ⟨hallows, hreads⟩ text htext
    have hpiece : field.resolve text ∈ (field.normalize token).splitOn ',' := by
      rw [hsplit]
      exact List.mem_map_of_mem htext
    have hchars : ∀ c ∈ field.resolve text, field.allows c = true := fun c hc =>
      hallows c (mem_of_mem_splitOn hpiece hc)
    obtain ⟨element, hread, hfits⟩ := hreads text htext
    exact ⟨hchars, element, (Field.read_eq_ok_iff_of_allows hchars).mp hread, hfits⟩
  · intro htakes
    refine ⟨?_, ?_⟩
    · intro c hc
      by_cases hcomma : c = ','
      · rw [hcomma]
        exact Field.allows_iff.mpr (.inr (.inl (by decide)))
      · obtain ⟨piece, hpiece, hmem⟩ := exists_mem_splitOn hc hcomma
        rw [hsplit] at hpiece
        obtain ⟨text, htext, rfl⟩ := List.mem_map.mp hpiece
        exact (htakes text htext).allowed c hmem
    · intro text htext
      obtain ⟨element, hdenotes, hfits⟩ := (htakes text htext).denotes
      exact ⟨element, Element.read_of_denotes hdenotes, hfits⟩

end Elements

/-! ## Tokens without names -/

/-- A token in capitals, with a lone question mark of a day field written as a star. -/
def Field.capitals (field : Field) (token : List Char) : List Char :=
  if field.takesQuestionMark ∧ token = ['?'] then ['*'] else upper token

/-- A token is written without names when none occurs in it, in any letter case. -/
def Field.Nameless (field : Field) (token : List Char) : Prop :=
  ∀ name ∈ field.aliases, ¬ name.letters <:+: upper token

theorem Field.nameless_of_allows {field : Field} {token : List Char}
    (h : ∀ c ∈ token, field.allows c = true) : field.Nameless token := by
  rw [Nameless, upper_eq_self h]
  exact not_infix_of_allows h

theorem Field.normalize_eq_capitals {field : Field} {token : List Char}
    (h : field.Nameless token) : field.normalize token = field.capitals token := by
  unfold normalize capitals
  split
  · rfl
  · exact replaceAliases_eq_self h

/-- What is said of the values of a field once Sunday has been moved from 7 to 0. -/
def Field.Settled (field : Field) (tells : Nat → Mark → Prop) (value : Nat) (how : Mark) : Prop :=
  if field = .dayOfWeek then value ≠ 7 ∧ (tells value how ∨ value = 0 ∧ tells 7 how)
  else tells value how

/-- Whether a table holds what a token written without names says, and nothing else. -/
structure MarkTable.AccountsFor (table : MarkTable) (field : Field) (token : List Char) :
    Prop where
  /-- The token is a star, or each of its elements denotes something. -/
  denotes : field.capitals token = ['*'] ∨
    ∀ text ∈ (field.capitals token).splitOn ',', ∃ element, Denotes field text element
  /-- The values carry the marks that the token says. -/
  carries : ∀ (value : Nat) (how : Mark), table.carries value how = true ↔
    field.Settled (WordSays field (field.capitals token)) value how
  /-- A bare letter for the last day is the only thing that holds for the field as a whole. -/
  enabled : ∀ how : Mark, table.isEnabled how.bits = true ↔
    how = .last ∧ field = .dayOfMonth ∧ ['L'] ∈ (field.capitals token).splitOn ','

/-- What was added to an empty table shows once Sunday has been moved. -/
theorem MarkTable.carries_settle {field : Field} {table : MarkTable} {tells : Nat → Mark → Prop}
    {enables : Mark → Prop} (h : (empty field).Adds table tells enables) (value : Nat)
    (how : Mark) :
    (Pattern.settle field table).carries value how = true ↔ field.Settled tells value how := by
  have hcarries : ∀ value how, table.carries value how = true ↔ tells value how :=
    fun value how => by rw [h.carries, carries_empty, or_iff_right Bool.false_ne_true]
  by_cases hfield : field = .dayOfWeek
  · have hcomplete := h.complete (complete_empty field)
    have hweekday : table.field = .dayOfWeek := by rw [h.field, field_empty, hfield]
    rw [Pattern.settle, if_pos hfield, Field.Settled, if_pos hfield,
      carries_folded hcomplete hweekday, hcarries, hcarries]
  · rw [Pattern.settle, if_neg hfield, Field.Settled, if_neg hfield, hcarries]

/-- What holds for a field as a whole is not moved. -/
theorem MarkTable.isEnabled_settle {field : Field} {table : MarkTable}
    {tells : Nat → Mark → Prop} {enables : Mark → Prop}
    (h : (empty field).Adds table tells enables) (how : Mark) :
    (Pattern.settle field table).isEnabled how.bits = true ↔ enables how := by
  have henabled : table.isEnabled how.bits = true ↔ enables how := by
    rw [h.enabled, isEnabled_empty, or_iff_right Bool.false_ne_true]
  unfold Pattern.settle
  split
  · exact henabled
  · exact henabled

theorem MarkTable.accountsFor_settle {field : Field} {token : List Char} {table : MarkTable}
    (h : MarkTable.parse field token = .ok table) (hnames : field.Nameless token) :
    (Pattern.settle field table).AccountsFor field token := by
  obtain ⟨hdenotes, hadds⟩ := adds_of_parse h
  rw [Field.normalize_eq_capitals hnames] at hdenotes hadds
  exact ⟨hdenotes, carries_settle hadds, isEnabled_settle hadds⟩

theorem MarkTable.carries_zeroSeconds {value : Nat} {how : Mark} :
    zeroSeconds.carries value how = true ↔ value = 0 ∧ how = .plain := by
  rw [carries_iff, zeroSeconds, marksOf_replace]
  by_cases hzero : value = 0
  · subst hzero
    simp [Mark.getLsbD_bits]
  · simp [Ne.symm hzero, hzero]

namespace Schedule

/-- **Accepted tokens mean what they say.**  In an accepted expression every field has a
token, the seconds perhaps excepted.  The table of a field whose token is written without
names carries exactly the union of what the elements of the token denote.  Seconds that are
not written are second zero. -/
theorem table_accounts_for_token {options : ParseOptions} {expression : String}
    {schedule : Schedule} (hparse : parseWith options expression = .ok schedule) :
    (∀ field, (∃ token, (field, token) ∈ schedule.pattern.fieldTokens) ∨
      field = .second ∧ schedule.pattern.hasSeconds = false) ∧
    (∀ field token, (field, token) ∈ schedule.pattern.fieldTokens →
      field.Nameless token.toList →
        (schedule.pattern.table field).AccountsFor field token.toList) ∧
    (schedule.pattern.hasSeconds = false →
      (∀ value how, schedule.pattern.seconds.carries value how = true ↔
        value = 0 ∧ how = .plain) ∧
      ∀ how : Mark, schedule.pattern.seconds.isEnabled how.bits = false) := by
  obtain ⟨pattern, hpattern, rfl⟩ := map_eq_ok_iff.mp hparse
  obtain ⟨htokens, hfields, hseconds⟩ := Pattern.exists_parse_of_parse hpattern
  refine ⟨hfields, fun field token hmem hnames => ?_, fun hfew => ?_⟩
  · obtain ⟨table, htable, hsettle⟩ := htokens field token hmem
    rw [hsettle]
    exact MarkTable.accountsFor_settle htable hnames
  · rw [hseconds hfew]
    exact ⟨fun value how => MarkTable.carries_zeroSeconds,
      fun how => MarkTable.isEnabled_empty .second how⟩

/-- Of a list of days and one of weekdays, the last of them a Sunday. -/
theorem table_accounts_for_token_days :
    ∃ schedule, parseWith {} "0 0 1-5/2,15w,l * 5L,1#2,7" = .ok schedule ∧
      schedule.pattern.days.AccountsFor .dayOfMonth "1-5/2,15w,l".toList ∧
      schedule.pattern.weekdays.AccountsFor .dayOfWeek "5L,1#2,7".toList := by
  obtain ⟨schedule, hparse, htokens⟩ := map_eq_ok_iff.mp
    (show (parseWith {} "0 0 1-5/2,15w,l * 5L,1#2,7").map (fun schedule =>
        schedule.pattern.fieldTokens) =
      .ok [(.minute, "0"), (.hour, "0"), (.dayOfMonth, "1-5/2,15w,l"), (.month, "*"),
        (.dayOfWeek, "5L,1#2,7")] by decide +kernel)
  have haccounts := (table_accounts_for_token hparse).2.1
  rw [htokens] at haccounts
  refine ⟨schedule, hparse, haccounts .dayOfMonth _ (by simp) nofun, ?_⟩
  have hchars : ∀ c ∈ "5L,1#2,7".toList, Field.dayOfWeek.allows c = true :=
    List.all_eq_true.mp (by decide)
  exact haccounts .dayOfWeek _ (by simp) (Field.nameless_of_allows hchars)

end Schedule
end CronSchedule
