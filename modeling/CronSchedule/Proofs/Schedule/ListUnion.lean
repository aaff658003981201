import CronSchedule.Proofs.Mark.Unions
import CronSchedule.Proofs.Schedule.SameAnswers
import CronSchedule.Proofs.Schedule.WordByWord

/-! # Lists and their elements

The elements of a list are entered one after the other into one table, after names have been
replaced in the list as a text.  Still the list is no more than its elements: it is accepted
when each of them is on its own (`parses_list_iff`), and its table is the union of theirs
(`isUnion_settle_of_list`), the weekdays after Sunday has been moved.  A lone star or question
mark is no element.

So neither the order of the elements matters nor how often one is repeated
(`settle_eq_of_same_elements`).  Both are carried over from one word to the whole expression
(`list_is_union`), where a single element is written in the place of the list by `withWord`.
-/
namespace CronSchedule

open Text

/-! ## One word -/

section Words

variable {field : Field} {token token' element : List Char} {table table' : MarkTable}
  {value : Nat} {how : Mark}

theorem not_lone_of_comma (h : ',' ∈ token) : ¬ (token = ['*'] ∨ token = ['?']) := by
  rintro (rfl | rfl)
  · exact absurd h (by decide)
  · exact absurd h (by decide)

/-- An element that a field takes is none of the texts that stand for nothing in a list. -/
theorem Field.Takes.not_lone (h : field.Takes (upper element)) :
    element ≠ [] ∧ element ≠ ['*'] ∧ element ≠ ['?'] := by
  obtain ⟨hallowed, found, hdenotes, -⟩ := h
  refine ⟨?_, ?_, ?_⟩
  · rintro rfl
    have hread := Element.read_of_denotes hdenotes
    cases field <;> cases hread
  · rintro rfl
    have hstar : field.resolve (upper ['*']) = ['*'] := by cases field <;> decide
    exact MarkTable.not_denotes_star (hstar ▸ hdenotes)
  · rintro rfl
    have hquestion : field.resolve (upper ['?']) = ['?'] := by cases field <;> decide
    have hrefused : field.allows '?' = false := by cases field <;> decide
    have hallows := hallowed '?' (by rw [hquestion]; exact List.mem_cons_self)
    rw [hrefused] at hallows
    cases hallows

/-- The elements of a word are normalized one by one, as they are alone. -/
theorem exists_mem_normalize_iff (hquestion : token ≠ ['?'])
    (hlone : ∀ element ∈ token.splitOn ',', element ≠ ['?']) (holds : List Char → Prop) :
    (∃ text ∈ (field.normalize token).splitOn ',', holds text) ↔
      ∃ element ∈ token.splitOn ',', ∃ text ∈ (field.normalize element).splitOn ',',
        holds text := by
  -- a word of one element has no comma before its names are replaced, nor after
  have halone : ∀ element ∈ token.splitOn ',',
      (field.normalize element).splitOn ',' = [field.resolve (upper element)] := by
    intro element helement
    have hcomma : ',' ∉ upper element :=
      not_mem_upper (by decide) (not_mem_of_mem_splitOn helement)
    rw [Field.splitOn_normalize (hlone element helement), List.splitOn_eq_singleton hcomma,
      List.map_singleton]
  rw [Field.splitOn_normalize hquestion, splitOn_upper, List.map_map]
  constructor
  · rintro ⟨text, htext, hholds⟩
    obtain ⟨element, helement, rfl⟩ := List.mem_map.mp htext
    refine ⟨element, helement, _, ?_, hholds⟩
    rw [halone element helement]
    exact List.mem_singleton_self _
  · rintro ⟨element, helement, text, htext, hholds⟩
    rw [halone element helement, List.mem_singleton] at htext
    subst htext
    exact ⟨_, List.mem_map_of_mem helement, hholds⟩

/-- A list is accepted when its elements are, and each of them is more than a star or a question
mark. -/
theorem parses_list_iff (hlist : ',' ∈ token) : Pattern.Parses field token ↔
    ∀ element ∈ token.splitOn ',',
      (element ≠ [] ∧ element ≠ ['*'] ∧ element ≠ ['?']) ∧ Pattern.Parses field element := by
  rw [parses_iff_takes (not_lone_of_comma hlist), splitOn_upper, List.forall_mem_map]
  refine forall₂_congr fun element helement => ?_
  have hcomma : ',' ∉ upper element := not_mem_upper (by decide) (not_mem_of_mem_splitOn helement)
  -- alone, a star or question mark would be taken for the whole field
  have halone : ¬ (element = ['*'] ∨ element = ['?']) →
      (Pattern.Parses field element ↔ field.Takes (upper element)) := by
    intro hlone
    rw [parses_iff_takes hlone, List.splitOn_eq_singleton hcomma, List.forall_mem_singleton]
  constructor
  · intro htakes
    have hne := htakes.not_lone
    exact ⟨hne, (halone (not_or.mpr hne.2)).mpr htakes⟩
  · rintro ⟨hne, hparses⟩
    exact (halone (not_or.mpr hne.2)).mp hparses

theorem not_lone_of_parses_list (hlist : ',' ∈ token) (h : Pattern.Parses field token) :
    ∀ element ∈ token.splitOn ',', element ≠ ['*'] ∧ element ≠ ['?'] :=
  fun element helement => ((parses_list_iff hlist).mp h element helement).1.2

/-- A list says what its elements say. -/
theorem wordSays_list_iff (hlist : ',' ∈ token) (h : Pattern.Parses field token) (value : Nat)
    (how : Mark) : MarkTable.WordSays field (field.normalize token) value how ↔
      ∃ element ∈ token.splitOn ',',
        MarkTable.WordSays field (field.normalize element) value how := by
  have hlone := not_lone_of_parses_list hlist h
  have hword : ∀ {word : List Char}, ¬ (word = ['*'] ∨ word = ['?']) →
      (MarkTable.WordSays field (field.normalize word) value how ↔
        ∃ text ∈ (field.normalize word).splitOn ',', ∃ element, Denotes field text element ∧
          element.Says field value how) :=
    fun hword => or_iff_right fun hstar => hword (Field.isLone_of_normalize hstar.1)
  rw [hword (not_lone_of_comma hlist), exists_mem_normalize_iff
    (fun heq => not_lone_of_comma hlist (.inr heq)) fun element helement =>
      (hlone element helement).2]
  exact exists_congr fun element => and_congr_right fun helement =>
    (hword (not_or.mpr (hlone element helement))).symm

/-- What each of some texts says may be moved to Sunday before or after it is put together. -/
theorem Field.settled_exists {texts : List (List Char)} {tells : List Char → Nat → Mark → Prop} :
    field.Settled (fun value how => ∃ text ∈ texts, tells text value how) value how ↔
      ∃ text ∈ texts, field.Settled (tells text) value how := by
  unfold Settled
  split
  · constructor
    · rintro ⟨hne, ⟨text, htext, htells⟩ | ⟨hzero, text, htext, htells⟩⟩
      · exact ⟨text, htext, hne, .inl htells⟩
      · exact ⟨text, htext, hne, .inr ⟨hzero, htells⟩⟩
    · rintro ⟨text, htext, hne, htells | ⟨hzero, htells⟩⟩
      · exact ⟨hne, .inl ⟨text, htext, htells⟩⟩
      · exact ⟨hne, .inr ⟨hzero, text, htext, htells⟩⟩
  · exact Iff.rfl

/-- The table of a list carries what one of its elements says. -/
theorem carries_list_iff (hlist : ',' ∈ token) (h : MarkTable.parse field token = .ok table) :
    (Pattern.settle field table).carries value how = true ↔ ∃ element ∈ token.splitOn ',',
      field.Settled (MarkTable.WordSays field (field.normalize element)) value how := by
  have hsays : MarkTable.WordSays field (field.normalize token) = fun value how =>
      ∃ element ∈ token.splitOn ',',
        MarkTable.WordSays field (field.normalize element) value how := by
    funext value how
    exact propext (wordSays_list_iff hlist ⟨table, h⟩ value how)
  rw [MarkTable.carries_settle (MarkTable.adds_of_parse h).2, hsays, Field.settled_exists]

theorem isEnabled_list_iff (hlist : ',' ∈ token) (h : MarkTable.parse field token = .ok table) :
    (Pattern.settle field table).isEnabled how.bits = true ↔ ∃ element ∈ token.splitOn ',',
      how = .last ∧ field = .dayOfMonth ∧ ['L'] ∈ (field.normalize element).splitOn ',' := by
  have hmem : ['L'] ∈ (field.normalize token).splitOn ',' ↔
      ∃ element ∈ token.splitOn ',', ['L'] ∈ (field.normalize element).splitOn ',' := by
    simpa only [exists_eq_right] using exists_mem_normalize_iff
      (fun heq => not_lone_of_comma hlist (.inr heq)) (fun element helement =>
        (not_lone_of_parses_list hlist ⟨table, h⟩ element helement).2) (· = ['L'])
  rw [MarkTable.isEnabled_settle (MarkTable.adds_of_parse h).2, hmem]
  simp only [exists_and_left, and_left_comm]

/-- The table of a list is the union of those of its elements. -/
theorem isUnion_settle_of_list (hlist : ',' ∈ token)
    (h : MarkTable.parse field token = .ok table) {single : List Char → MarkTable}
    (hsingle : ∀ element ∈ token.splitOn ',', ∃ part, MarkTable.parse field element = .ok part ∧
      single element = Pattern.settle field part) :
    (Pattern.settle field table).IsUnion ((token.splitOn ',').map single) := by
  refine MarkTable.isUnion_of_carries ?_ ?_
  · intro value how
    rw [carries_list_iff hlist h]
    simp only [List.mem_map, exists_exists_and_eq_and]
    refine exists_congr fun element => and_congr_right fun helement => ?_
    obtain ⟨part, hpart, heq⟩ := hsingle element helement
    rw [heq, MarkTable.carries_settle (MarkTable.adds_of_parse hpart).2]
  · intro how
    rw [isEnabled_list_iff hlist h]
    simp only [List.mem_map, exists_exists_and_eq_and]
    refine exists_congr fun element => and_congr_right fun helement => ?_
    obtain ⟨part, hpart, heq⟩ := hsingle element helement
    rw [heq, MarkTable.isEnabled_settle (MarkTable.adds_of_parse hpart).2]

/-- Whether a word is kept, or two lists have the same elements, in any order and number. -/
def SameElements (token token' : List Char) : Prop :=
  token = token' ∨ (',' ∈ token ∧ ',' ∈ token') ∧
    ∀ element, element ∈ token'.splitOn ',' ↔ element ∈ token.splitOn ','

theorem SameElements.symm (h : SameElements token token') : SameElements token' token := by
  rcases h with rfl | ⟨⟨hlist, hlist'⟩, hsame⟩
  · exact .inl rfl
  · exact .inr ⟨⟨hlist', hlist⟩, fun element => (hsame element).symm⟩

theorem SameElements.parses (h : SameElements token token') (hparses : Pattern.Parses field token) :
    Pattern.Parses field token' := by
  rcases h with rfl | ⟨⟨hlist, hlist'⟩, hsame⟩
  · exact hparses
  · rw [parses_list_iff hlist] at hparses
    rw [parses_list_iff hlist']
    exact fun element helement => hparses element ((hsame element).mp helement)

/-- The same elements have the same table. -/
theorem settle_eq_of_same_elements (hsame : SameElements token token')
    (h : MarkTable.parse field token = .ok table) (h' : MarkTable.parse field token' = .ok table') :
    Pattern.settle field table = Pattern.settle field table' := by
  rcases hsame with rfl | ⟨⟨hlist, hlist'⟩, hsame⟩
  · rw [h, Except.ok.injEq] at h'
    rw [h']
  · refine MarkTable.eq_of_carries ?_ (Pattern.complete_settle h) (Pattern.complete_settle h') ?_ ?_
    · rw [Pattern.field_settle, Pattern.field_settle, MarkTable.field_of_parse h,
        MarkTable.field_of_parse h']
    · intro value how
      rw [carries_list_iff hlist h, carries_list_iff hlist' h']
      simp only [hsame]
    · intro how
      rw [isEnabled_list_iff hlist h, isEnabled_list_iff hlist' h']
      simp only [hsame]

end Words

/-! ## Expressions -/

namespace Pattern

variable {expression : String} {i : Nat} {word : List Char}

/-- The words of an expression with another one in some place. -/
def withWord (expression : String) (i : Nat) (word : List Char) : String :=
  String.ofList ([' '].intercalate ((wordsOf expression).set i word))

theorem wordsOf_withWord (hword : IsWord word) :
    wordsOf (withWord expression i word) = (wordsOf expression).set i word := by
  have hgap : IsGap [' '] := ⟨List.cons_ne_nil _ _, List.forall_mem_singleton.mpr rfl⟩
  have hwords : ∀ piece ∈ (wordsOf expression).set i word, IsWord piece := by
    intro piece hpiece
    rcases List.mem_or_eq_of_mem_set hpiece with hmem | rfl
    · exact isWord_of_mem_words hmem
    · exact hword
  rw [wordsOf, withWord, String.toList_ofList, words_trim]
  by_cases hne : (wordsOf expression).set i word = []
  · rw [hne]
    rfl
  · exact (separated_intercalate hgap hne hwords).words_eq

end Pattern

namespace Schedule

open Pattern

variable {options : ParseOptions} {expression other : String} {schedule again : Schedule}
  {i : Nat} {field : Field} {token replacement : List Char}

/-- The table of a field is that of the word that has been put in its place. -/
theorem exists_parse_of_set (hfield : (fieldsOf (wordsOf expression).length)[i]? = some field)
    (htoken : (wordsOf expression)[i]? = some token)
    (hother : wordsOf other = (wordsOf expression).set i replacement)
    (hagain : parseWith options other = .ok again) :
    ∃ table, MarkTable.parse field replacement = .ok table ∧
      again.pattern.table field = settle field table := by
  obtain ⟨pattern, hpattern, rfl⟩ := map_eq_ok_iff.mp hagain
  obtain ⟨hlt, -⟩ := List.getElem?_eq_some_iff.mp htoken
  refine table_eq_settle (i := i) hpattern ?_ ?_
  · rw [hother, List.length_set]
    exact hfield
  · rw [hother, List.getElem?_set_self hlt]

/-- A word put in its own place changes nothing. -/
theorem wordsOf_set_self (htoken : (wordsOf expression)[i]? = some token) :
    wordsOf expression = (wordsOf expression).set i token := by
  obtain ⟨hlt, heq⟩ := List.getElem?_eq_some_iff.mp htoken
  rw [← heq, List.set_getElem_self]

theorem wordsOf_withWord_of_mem {element : List Char}
    (htoken : (wordsOf expression)[i]? = some token) (helement : element ∈ token.splitOn ',')
    (hne : element ≠ []) :
    wordsOf (withWord expression i element) = (wordsOf expression).set i element := by
  have hword := isWord_of_mem_words (List.mem_of_getElem? htoken)
  exact wordsOf_withWord ⟨hne, fun c hc => hword.2 c (mem_of_mem_splitOn helement hc)⟩

/-- Around an accepted list, each of its elements is accepted. -/
theorem exists_parseWith_withWord {element : List Char}
    (hfield : (fieldsOf (wordsOf expression).length)[i]? = some field)
    (htoken : (wordsOf expression)[i]? = some token) (hlist : ',' ∈ token)
    (haccepted : ∃ schedule, parseWith options expression = .ok schedule)
    (helement : element ∈ token.splitOn ',') :
    (element ≠ [] ∧ element ≠ ['*'] ∧ element ≠ ['?']) ∧
      ∃ single, parseWith options (withWord expression i element) = .ok single := by
  have hself := wordsOf_set_self htoken
  have hparses := (exists_parseWith_iff_parses hfield htoken hself haccepted).mp haccepted
  obtain ⟨hne, helementParses⟩ := (parses_list_iff hlist).mp hparses element helement
  -- the place of the list, seen from the expression with the single element there
  have hwords := wordsOf_withWord_of_mem htoken helement hne.1
  obtain ⟨hlt, -⟩ := List.getElem?_eq_some_iff.mp htoken
  have hfield' : (fieldsOf (wordsOf (withWord expression i element)).length)[i]? = some field := by
    rw [hwords, List.length_set]
    exact hfield
  have helement' : (wordsOf (withWord expression i element))[i]? = some element := by
    rw [hwords, List.getElem?_set_self hlt]
  have hback : wordsOf expression = (wordsOf (withWord expression i element)).set i token := by
    rw [hwords, List.set_set]
    exact hself
  exact ⟨hne, (exists_parseWith_iff_parses hfield' helement' hback haccepted).mpr helementParses⟩

/-- A list is accepted in its place when each of its elements is. -/
theorem exists_parseWith_list_iff (hfield : (fieldsOf (wordsOf expression).length)[i]? = some field)
    (htoken : (wordsOf expression)[i]? = some token) (hlist : ',' ∈ token) :
    (∃ schedule, parseWith options expression = .ok schedule) ↔
      ∀ element ∈ token.splitOn ',', (element ≠ [] ∧ element ≠ ['*'] ∧ element ≠ ['?']) ∧
        ∃ single, parseWith options (withWord expression i element) = .ok single := by
  constructor
  · intro haccepted element helement
    exact exists_parseWith_withWord hfield htoken hlist haccepted helement
  · intro hall
    have hwords : ∀ element ∈ token.splitOn ',',
        wordsOf (withWord expression i element) = (wordsOf expression).set i element :=
      fun element helement => wordsOf_withWord_of_mem htoken helement (hall element helement).1.1
    -- the other words are accepted because they are so around the first element
    obtain ⟨first, hfirst⟩ := List.exists_mem_of_ne_nil _ (List.splitOn_ne_nil ',' token)
    obtain ⟨-, haccepted⟩ := hall first hfirst
    refine (exists_parseWith_iff_parses hfield htoken (hwords first hfirst) haccepted).mpr ?_
    rw [parses_list_iff hlist]
    intro element helement
    obtain ⟨hne, single, hparse⟩ := hall element helement
    obtain ⟨table, htable, -⟩ := exists_parse_of_set hfield htoken (hwords element helement) hparse
    exact ⟨hne, table, htable⟩

/-- The table of the field is the union of those that the single elements have there. -/
theorem isUnion_table_of_list (hfield : (fieldsOf (wordsOf expression).length)[i]? = some field)
    (htoken : (wordsOf expression)[i]? = some token) (hlist : ',' ∈ token)
    {single : List Char → Schedule} (hparse : parseWith options expression = .ok schedule)
    (hsingles : ∀ element ∈ token.splitOn ',',
      parseWith options (withWord expression i element) = .ok (single element)) :
    (schedule.pattern.table field).IsUnion
      ((token.splitOn ',').map fun element => (single element).pattern.table field) := by
  obtain ⟨table, htable, heq⟩ := exists_parse_of_set hfield htoken (wordsOf_set_self htoken) hparse
  rw [heq]
  refine isUnion_settle_of_list hlist htable fun element helement => ?_
  have hne := ((parses_list_iff hlist).mp ⟨table, htable⟩ element helement).1.1
  exact exists_parse_of_set hfield htoken (wordsOf_withWord_of_mem htoken helement hne)
    (hsingles element helement)

/-- Expressions with the same elements in each word are accepted alike and answer alike. -/
theorem same_elements_answer_alike
    (hwords : WordByWord (fun _ => SameElements) expression other) (options : ParseOptions) :
    ((∃ schedule, parseWith options expression = .ok schedule) ↔
      ∃ again, parseWith options other = .ok again) ∧
    ∀ schedule again, parseWith options expression = .ok schedule →
      parseWith options other = .ok again →
        (∀ field, schedule.pattern.table field = again.pattern.table field) ∧
          schedule.pattern.bothDays = again.pattern.bothDays ∧ schedule.AnswersAlike again := by
  refine ⟨⟨?_, ?_⟩, ?_⟩
  · exact accepts_of_wordByWord hwords fun _ _ _ hsame => hsame.parses
  · exact accepts_of_wordByWord hwords.symm fun _ _ _ hsame => hsame.symm.parses
  · intro schedule again hparse hagain
    have htables : ∀ field, schedule.pattern.table field = again.pattern.table field := by
      intro field
      obtain ⟨pattern, hpattern, rfl⟩ := map_eq_ok_iff.mp hparse
      obtain ⟨later, hlater, rfl⟩ := map_eq_ok_iff.mp hagain
      rcases tables_of_wordByWord hwords hpattern hlater field with
        ⟨token, replacement, table, table', hsame, ⟨htable, heq⟩, htable', heq'⟩ |
          ⟨-, hzero, hzero'⟩
      · rw [heq, heq']
        exact settle_eq_of_same_elements hsame htable htable'
      · exact hzero.trans hzero'.symm
    have hboth : schedule.pattern.bothDays = again.pattern.bothDays :=
      (bothDays_of_parseWith hparse).trans (bothDays_of_parseWith hagain).symm
    exact ⟨htables, hboth, answersAlike_of_tables htables hboth,
      (horizon_of_parseWith hparse).trans (horizon_of_parseWith hagain).symm⟩

/-- **Lists are unions.**  Take an expression with a list of at least two elements in some
field.  It is accepted when no element is empty, a star or a question mark, and each of them
is accepted alone in the place of the list.  The table of the field is then the bitwise or of
those that the single elements have.  With the same elements in another order or number, the
expression is accepted as before, has the same tables and day rule, matches the same instants,
and every search and every list of occurrences is the same. -/
theorem list_is_union (hfield : (fieldsOf (wordsOf expression).length)[i]? = some field)
    (htoken : (wordsOf expression)[i]? = some token) (hlist : ',' ∈ token)
    (options : ParseOptions) :
    ((∃ schedule, parseWith options expression = .ok schedule) ↔
      ∀ element ∈ token.splitOn ',', (element ≠ [] ∧ element ≠ ['*'] ∧ element ≠ ['?']) ∧
        ∃ single, parseWith options (withWord expression i element) = .ok single) ∧
    (∀ (schedule : Schedule) (single : List Char → Schedule),
      parseWith options expression = .ok schedule →
      (∀ element ∈ token.splitOn ',',
        parseWith options (withWord expression i element) = .ok (single element)) →
      (schedule.pattern.table field).IsUnion
        ((token.splitOn ',').map fun element => (single element).pattern.table field)) ∧
    ∀ (other : String) (token' : List Char), wordsOf other = (wordsOf expression).set i token' →
      ',' ∈ token' → (∀ element, element ∈ token'.splitOn ',' ↔ element ∈ token.splitOn ',') →
      ((∃ schedule, parseWith options expression = .ok schedule) ↔
        ∃ again, parseWith options other = .ok again) ∧
      ∀ schedule again, parseWith options expression = .ok schedule →
        parseWith options other = .ok again →
        (∀ field, schedule.pattern.table field = again.pattern.table field) ∧
        schedule.dayRule = again.dayRule ∧ ∀ zone instant,
          schedule.isMatch zone instant = again.isMatch zone instant ∧ ∀ inclusive,
            schedule.nextOccurrence zone instant inclusive =
              again.nextOccurrence zone instant inclusive ∧
            ∀ calls, (schedule.occurrences zone instant inclusive).results calls =
              (again.occurrences zone instant inclusive).results calls := by
  refine ⟨exists_parseWith_list_iff hfield htoken hlist, ?_, ?_⟩
  · intro schedule single hparse hsingles
    exact isUnion_table_of_list hfield htoken hlist hparse hsingles
  · intro other token' hother hlist' hsame
    have hwords : WordByWord (fun _ => SameElements) expression other :=
      wordByWord_of_set hfield htoken hother (fun _ _ => .inl rfl) (.inr ⟨⟨hlist, hlist'⟩, hsame⟩)
    obtain ⟨haccepts, hanswers⟩ := same_elements_answer_alike hwords options
    refine ⟨haccepts, fun schedule again hparse hagain => ?_⟩
    obtain ⟨htables, hboth, halike⟩ := hanswers schedule again hparse hagain
    refine ⟨htables, dayRule_eq_of_tables htables hboth, ?_⟩
    intro zone instant
    exact ⟨halike.isMatch_eq zone instant, fun inclusive =>
      ⟨halike.nextOccurrence_eq zone instant inclusive, halike.results_eq zone instant inclusive⟩⟩

/-- A range that Sunday closes, a marked weekday and a name, and the same again the other way
round and with the name twice. -/
theorem list_is_union_weekdays :
    (∀ element ∈ "SAT-SUN,1#2,mon".toList.splitOn ',',
      ∃ single, parseWith {} (withWord "0 0 * * SAT-SUN,1#2,mon" 4 element) = .ok single) ∧
    ∃ schedule again, parseWith {} "0 0 * * SAT-SUN,1#2,mon" = .ok schedule ∧
      parseWith {} "0 0 * * mon,1#2,SAT-SUN,mon" = .ok again ∧
      (∀ field, schedule.pattern.table field = again.pattern.table field) ∧
      schedule.dayRule = again.dayRule := by
  have hfield : (fieldsOf (wordsOf "0 0 * * SAT-SUN,1#2,mon").length)[4]? = some .dayOfWeek := by
    decide
  have htoken : (wordsOf "0 0 * * SAT-SUN,1#2,mon")[4]? = some "SAT-SUN,1#2,mon".toList := by decide
  have hother : wordsOf "0 0 * * mon,1#2,SAT-SUN,mon" =
      (wordsOf "0 0 * * SAT-SUN,1#2,mon").set 4 "mon,1#2,SAT-SUN,mon".toList := by decide
  have hsame : ∀ element, element ∈ "mon,1#2,SAT-SUN,mon".toList.splitOn ',' ↔
      element ∈ "SAT-SUN,1#2,mon".toList.splitOn ',' := by
    intro element
    rw [show "mon,1#2,SAT-SUN,mon".toList.splitOn ',' =
        ["mon".toList, "1#2".toList, "SAT-SUN".toList, "mon".toList] by decide,
      show "SAT-SUN,1#2,mon".toList.splitOn ',' =
        ["SAT-SUN".toList, "1#2".toList, "mon".toList] by decide]
    simp only [List.mem_cons, List.not_mem_nil, or_false]
    constructor
    · rintro (hmon | hnth | hrange | hmon)
      · exact .inr (.inr hmon)
      · exact .inr (.inl hnth)
      · exact .inl hrange
      · exact .inr (.inr hmon)
    · rintro (hrange | hnth | hmon)
      · exact .inr (.inr (.inl hrange))
      · exact .inr (.inl hnth)
      · exact .inl hmon
  have haccepted := toBool_eq_true_iff.mp
    (show (parseWith {} "0 0 * * SAT-SUN,1#2,mon").toBool = true by decide)
  obtain ⟨hsingles, -, hlists⟩ := list_is_union hfield htoken (by decide) {}
  obtain ⟨haccepts, hanswers⟩ := hlists _ _ hother (by decide) hsame
  obtain ⟨again, hagain⟩ := haccepts.mp haccepted
  refine ⟨fun element helement => (hsingles.mp haccepted element helement).2, ?_⟩
  obtain ⟨schedule, hparse⟩ := haccepted
  obtain ⟨htables, hrule, -⟩ := hanswers schedule again hparse hagain
  exact ⟨schedule, again, hparse, hagain, htables, hrule⟩

end Schedule
end CronSchedule
