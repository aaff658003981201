import CronSchedule.Proofs.Element.Grammar
import CronSchedule.Proofs.Field.Naming
import CronSchedule.Proofs.Mark.Sunday

/-! # Which expressions are accepted

An expression is accepted when each of its words is, in the field of its place
(`exists_parseWith_iff`): moving Sunday afterwards cannot fail (`assemble_eq`).  A word
without names is read as it stands (`normalize_eq_self`), and it is accepted when it is a star
or all elements of its comma list are read and fit (`MarkTable.exists_parse_iff`).
`accepts_token_iff` says with the grammar of the elements what this means for one word of an
expression that is valid apart from it.
-/
namespace CronSchedule

open Text

/-! ## Words without names -/

namespace Field

variable {field : Field} {token : List Char} {c : Char}

/-- What a word may hold: digits, the characters of every field and those of its own. -/
theorem allows_iff : field.allows c = true ↔
    c.isDigit = true ∨ c ∈ ['*', '/', ',', '-'] ∨ c ∈ field.extraCharacters := by
  rw [allows, Bool.or_eq_true, Bool.or_eq_true, List.contains_iff_mem, List.contains_iff_mem,
    or_assoc]

/-- A character that may stand in a normalized word is none that a name starts with. -/
theorem first_not_mem_of_allows (h : ∀ c ∈ token, field.allows c = true) :
    ∀ name ∈ field.aliases, name.first ∉ token := by
  have hfirst : ∀ name ∈ field.aliases, field.allows name.first = false := by
    cases field <;> decide
  intro name hname hmem
  have hallows := h _ hmem
  rw [hfirst name hname] at hallows
  cases hallows

theorem plus_not_mem_of_allows (h : ∀ c ∈ token, field.allows c = true) : '+' ∉ token := by
  intro hplus
  have hallows := h _ hplus
  revert hallows
  cases field <;> decide

theorem eq_dayOfWeek_of_allows (h : ∀ c ∈ token, field.allows c = true) (hhash : '#' ∈ token) :
    field = .dayOfWeek := by
  have hallows := h _ hhash
  revert hallows
  cases field <;> decide

/-- What has only characters of a field is read as what it denotes. -/
theorem read_eq_ok_iff_of_allows (h : ∀ c ∈ token, field.allows c = true) {element : Element} :
    Element.read field token = .ok element ↔ Denotes field token element :=
  Element.read_eq_ok_iff (plus_not_mem_of_allows h) (eq_dayOfWeek_of_allows h)

theorem toUpper_of_allows (h : field.allows c = true) : c.toUpper = c := by
  rcases allows_iff.mp h with hdigit | hmem | hmem
  · exact toUpper_of_isDigit hdigit
  · have hshared : ∀ c ∈ ['*', '/', ',', '-'], c.toUpper = c := by simp
    exact hshared c hmem
  · have hextra : ∀ c ∈ field.extraCharacters, c.toUpper = c := by
      cases field <;> simp [extraCharacters]
    exact hextra c hmem

theorem upper_eq_self (h : ∀ c ∈ token, field.allows c = true) : upper token = token := by
  rw [upper]
  exact (List.map_congr_left fun c hc => toUpper_of_allows (h c hc)).trans (List.map_id _)

/-- No name occurs in a word of the characters that a normalized word may hold. -/
theorem not_infix_of_allows (h : ∀ c ∈ token, field.allows c = true) :
    ∀ name ∈ field.aliases, ¬ name.letters <:+: token :=
  fun name hname hin =>
    first_not_mem_of_allows h name hname (hin.subset List.mem_cons_self)

/-- A word of the characters that a normalized word may hold is normalized. -/
theorem normalize_eq_self (h : ∀ c ∈ token, field.allows c = true) :
    field.normalize token = token := by
  have hquestion : token ≠ ['?'] := by
    rintro rfl
    have hallows := h '?' List.mem_cons_self
    revert hallows
    cases field <;> decide
  rw [normalize, if_neg fun hlone => hquestion hlone.2, upper_eq_self h]
  exact replaceAliases_eq_self (not_infix_of_allows h)

theorem allows_of_digits (h : ∀ c ∈ token, c.isDigit = true) : ∀ c ∈ token, field.allows c = true :=
  fun c hc => allows_iff.mpr (.inl (h c hc))

theorem renumber_digits (h : ∀ c ∈ token, c.isDigit = true) : field.renumber token = token :=
  renumber_eq_self (not_infix_of_allows (allows_of_digits h))

theorem renumber_letters (field : Field) :
    ∀ name ∈ field.aliases, field.renumber name.letters = decimal name.value := by
  cases field <;> decide

end Field

/-! ## Words in their field -/

namespace MarkTable

variable {table : MarkTable} {field : Field} {marks : Marks} {token : List Char}

theorem exists_setAll_iff {values : List Nat} :
    (∃ result, table.setAll marks values = .ok result) ↔
      ∀ value ∈ values, (table.field.min ≤ value ∧ value ≤ table.field.max) ∧
        table.field.supports marks = true := by
  induction values generalizing table with
  | nil => exact iff_of_true ⟨table, rfl⟩ (by simp)
  | cons value values ih =>
    rw [List.forall_mem_cons, ← check_eq_ok_iff]
    constructor
    · rintro ⟨result, h⟩
      obtain ⟨later, hset, h⟩ := bind_eq_ok_iff.mp h
      have hcheck := (bind_eq_ok_iff.mp hset).choose_spec.1
      rw [← field_of_set hset]
      exact ⟨hcheck, ih.mp ⟨result, h⟩⟩
    · rintro ⟨hcheck, hrest⟩
      have hset : table.set value marks =
          .ok (table.replace value (table.marksOf value ||| marks)) := by
        rw [set, hcheck]
        rfl
      obtain ⟨result, h⟩ := ih.mpr ((field_of_set hset).symm ▸ hrest)
      exact ⟨result, bind_eq_ok_iff.mpr ⟨_, hset, h⟩⟩

/-- A table takes an element exactly where its field does. -/
theorem exists_enter_iff {element : Element} :
    (∃ result, table.enter element = .ok result) ↔ element.Fits table.field := by
  unfold enter
  split
  · rename_i hlast
    subst hlast
    unfold enable
    split
    · rename_i hsupports
      exact iff_of_true ⟨_, rfl⟩ ⟨fun _ => hsupports, nofun⟩
    · rename_i hsupports
      refine iff_of_false ?_ fun hfits => hsupports (hfits.1 rfl)
      rintro ⟨result, h⟩
      cases h
  · rename_i hlast
    rw [exists_setAll_iff]
    exact ⟨fun h => ⟨fun heq => absurd heq hlast, h⟩, And.right⟩

/-- All elements of a list are entered when each of them is read and fits. -/
theorem enterTexts_eq_none_iff {texts : List (List Char)} :
    (table.enterTexts texts).2 = none ↔
      ∀ text ∈ texts, ∃ element, Element.read table.field text = .ok element ∧
        element.Fits table.field := by
  induction texts generalizing table with
  | nil => exact iff_of_true rfl (by simp)
  | cons text texts ih =>
    rw [List.forall_mem_cons, enterTexts]
    cases htext : table.enterText text with
    | ok later =>
      obtain ⟨element, hread, henter⟩ := bind_eq_ok_iff.mp htext
      rw [ih, field_of_enterText htext]
      refine ⟨fun h => ⟨⟨element, hread, ?_⟩, h⟩, And.right⟩
      exact exists_enter_iff.mp ⟨later, henter⟩
    | error fault =>
      refine iff_of_false (Option.some_ne_none fault) ?_
      rintro ⟨⟨element, hread, hfits⟩, -⟩
      obtain ⟨later, henter⟩ := exists_enter_iff.mpr hfits
      have hok : table.enterText text = .ok later := bind_eq_ok_iff.mpr ⟨element, hread, henter⟩
      rw [htext] at hok
      cases hok

/-- Every value of a field may match plainly. -/
theorem exists_setAll_domain (field : Field) :
    ∃ result, (empty field).setAll Mark.plain.bits (domain field) = .ok result := by
  refine exists_setAll_iff.mpr fun value hvalue => ?_
  have hvalue := List.mem_range'_1.mp hvalue
  rw [field_empty]
  exact ⟨by omega, field.supports_plain⟩

theorem exists_ofToken_iff_enterToken :
    (∃ result, ofToken field token = .ok result) ↔ ((empty field).enterToken token).2 = none := by
  unfold ofToken
  split
  · rename_i later hlater
    exact iff_of_true ⟨later, rfl⟩ (by rw [hlater])
  · rename_i later fault hlater
    refine iff_of_false (by simp) ?_
    rw [hlater]
    exact nofun

theorem exists_ofToken_iff :
    (∃ result, ofToken field token = .ok result) ↔ token = ['*'] ∨
      ∀ text ∈ token.splitOn ',', ∃ element, Element.read field text = .ok element ∧
        element.Fits field := by
  rw [exists_ofToken_iff_enterToken, enterToken]
  by_cases hstar : token = ['*']
  · obtain ⟨result, hresult⟩ := exists_setAll_domain field
    rw [if_pos hstar, field_empty, hresult]
    exact iff_of_true rfl (.inl hstar)
  · rw [if_neg hstar, enterTexts_eq_none_iff, or_iff_right hstar]
    rfl

/-- A word has a table when its field allows it, once it is normalized, and it is entered
without a fault. -/
theorem parse_eq_ok_iff {result : MarkTable} : MarkTable.parse field token = .ok result ↔
    (∀ c ∈ field.normalize token, field.allows c = true) ∧
      (empty field).enterToken (field.normalize token) = (result, none) := by
  unfold MarkTable.parse
  simp only
  constructor
  · intro h
    split at h
    · cases h
    · rename_i hlegal
      refine ⟨fun c hc => by simpa using List.find?_eq_none.mp hlegal c hc, ?_⟩
      have htoken := mapError_eq_ok_iff.mp h
      unfold ofToken at htoken
      split at htoken
      · rename_i later hlater
        cases htoken
        exact hlater
      · cases htoken
  · rintro ⟨hallows, henter⟩
    have hlegal : (field.normalize token).find? (fun c => !field.allows c) = none := by
      rw [List.find?_eq_none]
      intro c hc
      rw [hallows c hc]
      decide
    rw [hlegal, mapError_eq_ok_iff, ofToken, henter]

theorem bounded_of_parse (h : MarkTable.parse field token = .ok table) : table.Bounded := by
  have hbounded := bounded_enterToken (bounded_empty field) (field.normalize token)
  rwa [(parse_eq_ok_iff.mp h).2] at hbounded

theorem exists_parse_iff_reads :
    (∃ table, MarkTable.parse field token = .ok table) ↔
      (∀ c ∈ field.normalize token, field.allows c = true) ∧
        (field.normalize token = ['*'] ∨ ∀ text ∈ (field.normalize token).splitOn ',',
          ∃ element, Element.read field text = .ok element ∧ element.Fits field) := by
  constructor
  · rintro ⟨table, h⟩
    obtain ⟨hallows, henter⟩ := parse_eq_ok_iff.mp h
    refine ⟨hallows, exists_ofToken_iff.mp (exists_ofToken_iff_enterToken.mpr ?_)⟩
    rw [henter]
  · rintro ⟨hallows, hreads⟩
    have hnone := exists_ofToken_iff_enterToken.mp (exists_ofToken_iff.mpr hreads)
    exact ⟨_, parse_eq_ok_iff.mpr ⟨hallows, Prod.ext rfl hnone⟩⟩

/-- A word of the characters of its field is accepted when it is a star or all elements of
its list are, or step from beyond the end of the field. -/
theorem exists_parse_iff (h : ∀ c ∈ token, field.allows c = true) :
    (∃ table, MarkTable.parse field token = .ok table) ↔ token = ['*'] ∨
      ∀ text ∈ token.splitOn ',', IsElement field text ∨ IsOvershoot field text := by
  rw [exists_parse_iff_reads, Field.normalize_eq_self h, and_iff_right h]
  refine or_congr_right (forall₂_congr fun text htext => ?_)
  have hchars : ∀ c ∈ text, field.allows c = true := fun c hc => h c (mem_of_mem_splitOn htext hc)
  exact Element.exists_read_iff (Field.plus_not_mem_of_allows hchars)
    (Field.eq_dayOfWeek_of_allows hchars)

end MarkTable

/-! ## Expressions -/

theorem SecondsMode.eq_of_accepts {mode : SecondsMode} {count : Nat}
    (h : mode.accepts count = true) : count = 5 ∨ count = 6 := by
  cases mode with
  | optional => simpa [accepts] using h
  | required => exact .inr (by simpa [accepts] using h)
  | disallowed => exact .inl (by simpa [accepts] using h)

/-- An entry of two lists is a pair from one place. -/
theorem mem_zip_iff_getElem? {α β : Type} {left : List α} {right : List β} {a : α} {b : β} :
    (a, b) ∈ left.zip right ↔ ∃ i : Nat, left[i]? = some a ∧ right[i]? = some b := by
  rw [List.mem_iff_getElem?]
  simp only [List.getElem?_zip_eq_some]

namespace Pattern

/-- The words of an expression. -/
def wordsOf (expression : String) : List (List Char) := words (trim expression.toList)

/-- The fields that a number of words stand in. -/
def fieldsOf (count : Nat) : List Field :=
  if count = 6 then Field.all else Field.withoutSeconds

/-- Whether a word is accepted in a field. -/
def Parses (field : Field) (token : List Char) : Prop :=
  ∃ table, MarkTable.parse field token = .ok table

/-- Once a weekday token is read, moving Sunday cannot fail. -/
theorem assemble_eq (bothDays : Bool) (text : List Char) (tokens : List (List Char))
    (seconds : MarkTable) (minute hour day month weekday : List Char) :
    assemble bothDays text tokens seconds minute hour day month weekday = do
      let minutes ← MarkTable.parse .minute minute
      let hours ← MarkTable.parse .hour hour
      let days ← MarkTable.parse .dayOfMonth day
      let months ← MarkTable.parse .month month
      let weekdays ← MarkTable.parse .dayOfWeek weekday
      return {
        text := String.ofList text
        tokens := tokens.map String.ofList
        seconds, minutes, hours, days, months
        weekdays := weekdays.folded
        bothDays } := by
  refine bind_congr fun minutes => bind_congr fun hours => bind_congr fun days =>
    bind_congr fun months => ?_
  cases hweekdays : MarkTable.parse .dayOfWeek weekday with
  | error e => rfl
  | ok weekdays =>
    have hfolded := MarkTable.foldSunday_eq (MarkTable.bounded_of_parse hweekdays)
      (MarkTable.field_of_parse hweekdays)
    simp only [bind, Except.bind, hfolded, mapError_ok]

theorem exists_assemble_iff {bothDays : Bool} {text : List Char} {tokens : List (List Char)}
    {seconds : MarkTable} {minute hour day month weekday : List Char} :
    (∃ pattern, assemble bothDays text tokens seconds minute hour day month weekday =
        .ok pattern) ↔
      Parses .minute minute ∧ Parses .hour hour ∧ Parses .dayOfMonth day ∧
        Parses .month month ∧ Parses .dayOfWeek weekday := by
  have hpure : ∀ {found : Pattern}, ∃ pattern, (pure found : Except Error Pattern) = .ok pattern :=
    ⟨_, rfl⟩
  rw [assemble_eq]
  simp only [exists_bind_eq_ok_iff, hpure, and_true, exists_and_right, Parses]

/-- Words are accepted when their number is, and each of them in its field. -/
theorem exists_ofWords_iff {options : ParseOptions} {text : List Char}
    {tokens : List (List Char)} :
    (∃ pattern, ofWords options text tokens = .ok pattern) ↔
      options.seconds.accepts tokens.length = true ∧
        ∀ entry ∈ (fieldsOf tokens.length).zip tokens, Parses entry.1 entry.2 := by
  unfold ofWords
  by_cases haccepts : options.seconds.accepts tokens.length = true
  · rw [if_pos haccepts, and_iff_right haccepts, MarkTable.bind_defaultSeconds]
    split
    · rw [exists_assemble_iff]
      simp [fieldsOf, Field.withoutSeconds]
    · rw [exists_bind_eq_ok_iff]
      simp only [exists_assemble_iff, exists_and_right]
      simp [fieldsOf, Field.all, Parses]
    · rename_i hfive hsix
      rcases SecondsMode.eq_of_accepts haccepts with hcount | hcount
      · match tokens, hcount with
        | [a, b, c, d, e], _ => exact (hfive a b c d e rfl).elim
      · match tokens, hcount with
        | [a, b, c, d, e, f], _ => exact (hsix a b c d e f rfl).elim
  · rw [if_neg haccepts]
    refine iff_of_false (by simp) fun h => haccepts h.1

/-- An expression is accepted when it has words and they are. -/
theorem exists_parse_iff {options : ParseOptions} {expression : String} :
    (∃ pattern, Pattern.parse options expression = .ok pattern) ↔
      options.seconds.accepts (wordsOf expression).length = true ∧
        ∀ entry ∈ (fieldsOf (wordsOf expression).length).zip (wordsOf expression),
          Parses entry.1 entry.2 := by
  unfold Pattern.parse
  simp only
  split
  · rename_i hempty
    have hwords : wordsOf expression = [] := by
      rw [wordsOf, hempty]
      rfl
    refine iff_of_false (by simp) ?_
    rintro ⟨haccepts, -⟩
    rw [hwords] at haccepts
    rcases SecondsMode.eq_of_accepts haccepts with hcount | hcount
    · cases hcount
    · cases hcount
  · exact exists_ofWords_iff

end Pattern

namespace Schedule

open Pattern

variable {options : ParseOptions} {expression other : String} {i : Nat} {field : Field}
  {token replacement : List Char}

theorem exists_parseWith_iff :
    (∃ schedule, parseWith options expression = .ok schedule) ↔
      options.seconds.accepts (wordsOf expression).length = true ∧
        ∀ entry ∈ (fieldsOf (wordsOf expression).length).zip (wordsOf expression),
          Parses entry.1 entry.2 := by
  rw [← Pattern.exists_parse_iff]
  constructor
  · rintro ⟨schedule, h⟩
    obtain ⟨pattern, h, -⟩ := map_eq_ok_iff.mp h
    exact ⟨pattern, h⟩
  · rintro ⟨pattern, h⟩
    exact ⟨_, map_eq_ok_iff.mpr ⟨pattern, h, rfl⟩⟩

/-- Where an expression differs from an accepted one in a single word, it is accepted when
the word is. -/
theorem exists_parseWith_iff_parses
    (hfield : (fieldsOf (wordsOf expression).length)[i]? = some field)
    (htoken : (wordsOf expression)[i]? = some token)
    (hother : wordsOf other = (wordsOf expression).set i replacement)
    (hvalid : ∃ schedule, parseWith options other = .ok schedule) :
    (∃ schedule, parseWith options expression = .ok schedule) ↔ Parses field token := by
  obtain ⟨haccepts, hrest⟩ := exists_parseWith_iff.mp hvalid
  rw [hother, List.length_set] at haccepts hrest
  rw [exists_parseWith_iff, and_iff_right haccepts]
  constructor
  · intro h
    exact h (field, token) (mem_zip_iff_getElem?.mpr ⟨i, hfield, htoken⟩)
  · rintro h ⟨field', token'⟩ hentry
    obtain ⟨j, hfield', htoken'⟩ := mem_zip_iff_getElem?.mp hentry
    by_cases hij : i = j
    · subst hij
      rw [hfield, Option.some.injEq] at hfield'
      rw [htoken, Option.some.injEq] at htoken'
      exact hfield' ▸ htoken' ▸ h
    · rw [← List.getElem?_set_ne (a := replacement) hij] at htoken'
      exact hrest (field', token') (mem_zip_iff_getElem?.mpr ⟨j, hfield', htoken'⟩)

/-- A word of the grammar: a star or a comma list of elements. -/
def IsToken (field : Field) (token : List Char) : Prop :=
  token = ['*'] ∨ ∀ text ∈ token.splitOn ',', IsElement field text

/-- **What is accepted.**  Take a word of the characters of its field, in an expression
that is valid with another word in its place.  The expression is accepted when the word is
a star, or when each element of its comma list is one of the grammar or steps from beyond
the end of the field.  The grammar alone says so exactly where no element does the latter,
or another element is refused. -/
theorem accepts_token_iff
    (hfield : (fieldsOf (wordsOf expression).length)[i]? = some field)
    (htoken : (wordsOf expression)[i]? = some token)
    (hother : wordsOf other = (wordsOf expression).set i replacement)
    (hvalid : ∃ schedule, parseWith options other = .ok schedule)
    (hchars : ∀ c ∈ token, field.allows c = true) :
    ((∃ schedule, parseWith options expression = .ok schedule) ↔
      token = ['*'] ∨ ∀ text ∈ token.splitOn ',', IsElement field text ∨ IsOvershoot field text) ∧
    (((∃ schedule, parseWith options expression = .ok schedule) ↔ IsToken field token) ↔
      ¬ ((∃ text ∈ token.splitOn ',', IsOvershoot field text) ∧
        ∀ text ∈ token.splitOn ',', IsElement field text ∨ IsOvershoot field text)) := by
  rw [exists_parseWith_iff_parses hfield htoken hother hvalid, Parses,
    MarkTable.exists_parse_iff hchars]
  refine ⟨Iff.rfl, ?_⟩
  constructor
  · rintro h ⟨⟨text, htext, hover⟩, hall⟩
    rcases h.mp (.inr hall) with rfl | htoken
    · exact absurd (mem_of_mem_splitOn htext hover.mem_slash) (by decide)
    · exact not_isElement_of_isOvershoot hover (htoken text htext)
  · intro h
    refine ⟨?_, Or.imp_right fun htoken text htext => .inl (htoken text htext)⟩
    refine Or.imp_right fun hall text htext => (hall text htext).resolve_right fun hover => ?_
    exact h ⟨⟨text, htext, hover⟩, hall⟩

/-- A list of days is accepted for what its elements are. -/
theorem accepts_token_iff_days :
    (∃ schedule, parseWith {} "0 0 1-5/2,15W,L * *" = .ok schedule) ∧
      ∀ text ∈ "1-5/2,15W,L".toList.splitOn ',',
        IsElement .dayOfMonth text ∨ IsOvershoot .dayOfMonth text := by
  have haccepted := toBool_eq_true_iff.mp
    (show (parseWith {} "0 0 1-5/2,15W,L * *").toBool = true by decide +kernel)
  have hvalid := toBool_eq_true_iff.mp (show (parseWith {} "0 0 * * *").toBool = true by decide)
  have htoken : (wordsOf "0 0 1-5/2,15W,L * *")[2]? = some "1-5/2,15W,L".toList := by decide
  have hother : wordsOf "0 0 * * *" = (wordsOf "0 0 1-5/2,15W,L * *").set 2 ['*'] := by decide
  have hchars : ∀ c ∈ "1-5/2,15W,L".toList, Field.dayOfMonth.allows c = true :=
    List.all_eq_true.mp (by decide)
  have hexact := (accepts_token_iff (by decide) htoken hother hvalid hchars).1
  exact ⟨haccepted, (hexact.mp haccepted).resolve_left (by decide)⟩

/-- The 32nd day of a month is refused, but a step from it on is accepted. -/
theorem accepts_step_from_day_32 :
    isValid "0 0 32/1 * *" = true ∧ isValid "0 0 32 * *" = false ∧
      wordsOf "0 0 32/1 * *" = (wordsOf "0 0 32 * *").set 2 "32/1".toList ∧
      ¬ IsToken .dayOfMonth "32/1".toList := by
  refine ⟨by decide +kernel, by decide, by decide, ?_⟩
  have hover : IsOvershoot .dayOfMonth "32/1".toList :=
    ⟨['3', '2'], ['1'], 32, rfl, rfl, by decide, by decide, 1, rfl, by decide, by decide⟩
  rintro (hstar | hall)
  · exact absurd hstar (by decide)
  · exact not_isElement_of_isOvershoot hover (hall _ (by decide))

end Schedule
end CronSchedule
