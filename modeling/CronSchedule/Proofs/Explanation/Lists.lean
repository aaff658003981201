import CronSchedule.Proofs.Explanation.Readings
import Mathlib.Data.List.Forall2

/-! # Explained lists

How a language writes a list is said without the functions that write it: a value by the name
of the number that it stands for (`Language.Spells`), a span and an element with their
separators kept (`SpellsSpan`, `SpellsElement`).

`explainToken_list` is that an accepted token with a comma is explained as the list of its
elements, each written that way and in their order.  Only a token that starts with a stepped
star is not: the star is looked for before commas are, and what follows it is no number, so
the token is shown as it stands.
-/
namespace CronSchedule

open Text

/-! ## How values and elements are written -/

/-- Whether a text stands for a number in a field: as digits, or as a name in any letter
case. -/
def Field.StandsFor (field : Field) (text : List Char) (n : Nat) : Prop :=
  digits? text = some n ∨ ∃ name ∈ field.aliases, upper text = name.letters ∧ name.value = n

namespace Language

/-- The names for the values of a field, from its smallest value on. -/
def names (lang : Language) : Field → List String
  | .month => lang.monthNames
  | .dayOfWeek => lang.weekdayNames
  | _ => []

/-- How a value is written: by the name of the number that it stands for, and as it stands
where no number with a name does. -/
inductive Spells (lang : Language) (field : Field) : List Char → String → Prop
  | name {text : List Char} {i : Nat} {name : String}
      (h : field.StandsFor text (field.min + i)) (hname : (lang.names field)[i]? = some name) :
      Spells lang field text name
  | asWritten {text : List Char}
      (h : ∀ i < (lang.names field).length, ¬ field.StandsFor text (field.min + i)) :
      Spells lang field text (String.ofList text)

/-- How a value or a range is written. -/
inductive SpellsSpan (lang : Language) (field : Field) : List Char → String → Prop
  | value {text : List Char} {shown : String} (hdash : '-' ∉ text)
      (h : lang.Spells field text shown) : SpellsSpan lang field text shown
  | range {first last : List Char} {shown shown' : String} (hdash : '-' ∉ first)
      (hfirst : lang.Spells field first shown) (hlast : lang.Spells field last shown') :
      SpellsSpan lang field (first ++ '-' :: last) (lang.listRange shown shown')

/-- How an element is written, a step as it stands. -/
inductive SpellsElement (lang : Language) (field : Field) : List Char → String → Prop
  | span {text : List Char} {shown : String} (hslash : '/' ∉ text)
      (h : lang.SpellsSpan field text shown) : SpellsElement lang field text shown
  | stepped {span step : List Char} {shown : String} (hslash : '/' ∉ span)
      (h : lang.SpellsSpan field span shown) :
      SpellsElement lang field (span ++ '/' :: step) (shown ++ "/" ++ String.ofList step)

variable {lang : Language} {field : Field} {text : List Char} {n i : Nat}

/-! ## Values -/

theorem nameOf?_min_add (lang : Language) (field : Field) (i : Nat) :
    lang.nameOf? field (field.min + i) = (lang.names field)[i]? := by
  cases field with
  | month =>
    have hpos : Field.month.min + i ≠ 0 := by
      show 1 + i ≠ 0
      omega
    have hindex : Field.month.min + i - 1 = i := Nat.add_sub_cancel_left 1 i
    rw [nameOf?, if_neg hpos, hindex]
    rfl
  | dayOfWeek => rw [nameOf?, show Field.dayOfWeek.min + i = i from Nat.zero_add i]; rfl
  | second | minute | hour | dayOfMonth => rfl

theorem min_le_of_nameOf? {name : String} (h : lang.nameOf? field n = some name) :
    field.min ≤ n := by
  cases field with
  | month =>
    change (if n = 0 then none else lang.monthNames[n - 1]?) = some name at h
    by_cases hzero : n = 0
    · rw [if_pos hzero] at h
      cases h
    · exact Nat.pos_of_ne_zero hzero
  | dayOfWeek => exact Nat.zero_le n
  | second | minute | hour | dayOfMonth => cases h

/-- A language has a dozen names at most for a field. -/
theorem length_names_le (lang : Language) (field : Field) : (lang.names field).length ≤ 12 := by
  have hmonths := lang.length_monthNames
  have hweekdays := lang.length_weekdayNames
  cases field with
  | month => exact Nat.le_of_eq hmonths
  | dayOfWeek =>
    show lang.weekdayNames.length ≤ 12
    omega
  | second | minute | hour | dayOfMonth => exact Nat.zero_le 12

theorem aliasValue?_of_letters {name : Alias} (hname : name ∈ field.aliases)
    (htext : upper text = name.letters) : field.aliasValue? text = some name.value := by
  have hfirst : ∀ field ∈ Field.all, ∀ name ∈ field.aliases,
      (field.aliases.find? fun other => other.letters == name.letters).map Alias.value =
        some name.value := by
    decide
  rw [Field.aliasValue?, htext]
  exact hfirst field field.mem_all name hname

/-- A legible text is resolved to the number that it stands for, if this is not too large. -/
theorem numberOf?_eq_some_iff (hlegible : field.Legible text) (hn : n ≤ wordLimit) :
    numberOf? field text = some n ↔ field.StandsFor text n := by
  constructor
  · intro h
    exact (digits_or_name_of_numberOf? hlegible h).imp And.left id
  · rintro (hdigits | ⟨name, hname, htext, rfl⟩)
    · have hnumeral := (numeralUpTo?_eq_some_iff hlegible.plus_not_mem).mpr ⟨hdigits, hn⟩
      rw [numberOf?, hnumeral, Option.some_or]
    · have hnone : numeralUpTo? wordLimit text = none := by
        refine Option.eq_none_iff_forall_ne_some.mpr fun k hk => ?_
        have hdigits := ((numeralUpTo?_eq_some_iff hlegible.plus_not_mem).mp hk).1
        have hletters : ∀ field ∈ Field.all, ∀ name ∈ field.aliases,
            digits? name.letters = none := by decide
        rw [← upper_digits (digits?_eq_some hdigits).2, htext,
          hletters field field.mem_all name hname] at hdigits
        cases hdigits
      rw [numberOf?, hnone, Option.none_or]
      exact aliasValue?_of_letters hname htext

/-- A legible value is written as it should be. -/
theorem spells_value (lang : Language) (h : field.Legible text) :
    lang.Spells field text (lang.value field text) := by
  have hlength := lang.length_names_le field
  have hlimit : ∀ i < (lang.names field).length, field.min + i ≤ wordLimit := by
    intro i hi
    have hmin : field.min ≤ 1 := by
      cases field <;> decide
    have hword : 13 ≤ wordLimit := by decide
    omega
  unfold value
  cases hname : (numberOf? field text).bind (lang.nameOf? field) with
  | some name =>
    obtain ⟨n, hn, hname⟩ := Option.bind_eq_some_iff.mp hname
    obtain ⟨i, rfl⟩ := Nat.exists_eq_add_of_le (min_le_of_nameOf? hname)
    rw [nameOf?_min_add] at hname
    have hi := (List.getElem?_eq_some_iff.mp hname).1
    exact .name ((numberOf?_eq_some_iff h (hlimit i hi)).mp hn) hname
  | none =>
    refine .asWritten fun i hi hstands => ?_
    have hn := (numberOf?_eq_some_iff h (hlimit i hi)).mpr hstands
    rw [hn, Option.bind_some, nameOf?_min_add, List.getElem?_eq_getElem hi] at hname
    cases hname

/-! ## Elements -/

theorem spellsSpan_of_legible (lang : Language) (h : field.Legible text) :
    lang.SpellsSpan field text
      (match cutAt? '-' text with
      | some (first, last) => lang.listRange (lang.value field first) (lang.value field last)
      | none => lang.value field text) := by
  cases hcut : cutAt? '-' text with
  | some sides =>
    obtain ⟨first, last⟩ := sides
    obtain ⟨rfl, hdash⟩ := cutAt?_eq_some_iff.mp hcut
    obtain ⟨hfirst, hlast⟩ := Field.legible_append_cons field.separates_dash (by decide) h
    exact .range hdash (spells_value lang hfirst) (spells_value lang hlast)
  | none => exact .value (cutAt?_eq_none_iff.mp hcut) (spells_value lang h)

/-- A legible element is written as it should be. -/
theorem spellsElement_listElement (lang : Language) (h : field.Legible text) :
    lang.SpellsElement field text (lang.listElement field text) := by
  unfold listElement
  cases hcut : cutAt? '/' text with
  | some sides =>
    obtain ⟨span, step⟩ := sides
    obtain ⟨rfl, hslash⟩ := cutAt?_eq_some_iff.mp hcut
    have hspan := (Field.legible_append_cons field.separates_slash (by decide) h).1
    exact .stepped hslash (spellsSpan_of_legible lang hspan)
  | none => exact .span (cutAt?_eq_none_iff.mp hcut) (spellsSpan_of_legible lang h)

/-! ## Lists -/

/-- A numeral holds no comma. -/
theorem numeralUpTo?_eq_none_of_comma {limit : Nat} (h : ',' ∈ text) :
    numeralUpTo? limit text = none := by
  refine Option.eq_none_iff_forall_ne_some.mpr fun n hn => ?_
  have hnumeral := (Option.filter_eq_some_iff.mp hn).1
  unfold numeral? at hnumeral
  split at hnumeral
  · exact not_mem_of_digits? hnumeral (by decide) ((List.mem_cons.mp h).resolve_left (by decide))
  · exact not_mem_of_digits? hnumeral (by decide) h

/-- A token with a comma is a list, unless it starts with a stepped star. -/
theorem ofToken_of_comma {token : List Char} (h : ',' ∈ token) :
    Shape.ofToken token =
      if ['*', '/'] <+: token then .value token else .list (token.splitOn ',') := by
  have hlone : ¬ (token = ['*'] ∨ token = ['?']) := not_isLone_of_mem h (by decide)
  unfold Shape.ofToken
  rw [if_neg hlone]
  cases hstrip : ['*', '/'].isPrefixOf? token with
  | some count =>
    obtain rfl := List.isPrefixOf?_eq_some_iff_append_eq.mp hstrip
    have hcount : ',' ∈ count := by simpa using h
    rw [if_pos (List.prefix_append _ _)]
    simp only [numeralUpTo?_eq_none_of_comma hcount]
  | none =>
    have hstar : ¬ ['*', '/'] <+: token := by
      rintro ⟨count, rfl⟩
      rw [List.isPrefixOf?_eq_some_iff_append_eq.mpr rfl] at hstrip
      cases hstrip
    rw [if_neg hstar]
    exact if_pos h

/-- **Lists are explained element by element.**  An accepted token with a comma is explained,
in every language, as the list of its elements in their order: each
with its separators, and with the full name of every number or name that has one.  If the
token starts with a stepped star, though, it is shown as it stands. -/
theorem explainToken_list (lang : Language) {token : String} {table : MarkTable}
    (h : MarkTable.parse field token.toList = .ok table) (hcomma : ',' ∈ token.toList) :
    (¬ ['*', '/'] <+: token.toList →
      ∃ items, List.Forall₂ (lang.SpellsElement field) (token.toList.splitOn ',') items ∧
        lang.explainToken field token = lang.atPhrase (lang.listSeparator.intercalate items)) ∧
    (['*', '/'] <+: token.toList → lang.explainToken field token = lang.atPhrase token) := by
  have hlegible := (MarkTable.entered_of_parse h (not_isLone_of_mem hcomma (by decide))).1
  unfold explainToken
  rw [ofToken_of_comma hcomma]
  constructor
  · intro hstar
    rw [if_neg hstar]
    refine ⟨(token.toList.splitOn ',').map (lang.listElement field), ?_, rfl⟩
    rw [List.forall₂_map_right_iff, List.forall₂_same]
    intro element helement
    exact spellsElement_listElement lang (Field.legible_of_mem_splitOn hlegible helement)
  · intro hstar
    have hnone : numberOf? field token.toList = none := by
      refine Option.eq_none_iff_forall_ne_some.mpr fun n hn => ?_
      exact not_mem_of_numberOf? hlegible hn field.separates_comma (by decide) (by decide) hcomma
    rw [if_pos hstar, phraseOf, value, hnone]
    simp

/-- Names, a number with a leading zero and a stepped range, in capitals or not. -/
theorem explainToken_list_months :
    (∃ table, MarkTable.parse .month "jan-3/2,*/6,09".toList = .ok table) ∧
      ',' ∈ "jan-3/2,*/6,09".toList ∧ ¬ ['*', '/'] <+: "jan-3/2,*/6,09".toList ∧
      ∃ items, List.Forall₂ (english.SpellsElement .month)
          ["jan-3/2".toList, "*/6".toList, "09".toList] items ∧
        english.explainToken .month "jan-3/2,*/6,09" = english.atPhrase (", ".intercalate items) ∧
        english.explainToken .month "jan-3/2,*/6,09" = "At January-March/2, */6, September" := by
  have haccepted : ∃ table, MarkTable.parse .month "jan-3/2,*/6,09".toList = .ok table :=
    toBool_eq_true_iff.mp (by decide +kernel)
  obtain ⟨table, h⟩ := haccepted
  have hcomma : ',' ∈ "jan-3/2,*/6,09".toList := by simp
  have hstar : ¬ ['*', '/'] <+: "jan-3/2,*/6,09".toList := by decide
  obtain ⟨items, hitems, hphrase⟩ := (explainToken_list english h hcomma).1 hstar
  exact ⟨⟨table, h⟩, hcomma, hstar, items, hitems, hphrase, by decide⟩

/-- A list that starts with a stepped star is shown as it stands, and so it is in no way the
phrase of its two elements. -/
theorem explainToken_stepped_star_first :
    (MarkTable.parse .month "*/2,JAN".toList).toBool = true ∧
      english.explainToken .month "*/2,JAN" = "At */2,JAN" ∧
      ¬ ∃ items, List.Forall₂ (english.SpellsElement .month) ["*/2".toList, "JAN".toList] items ∧
        english.explainToken .month "*/2,JAN" =
          english.atPhrase (english.listSeparator.intercalate items) := by
  have hshown : english.explainToken .month "*/2,JAN" = "At */2,JAN" := by decide
  refine ⟨by decide +kernel, hshown, ?_⟩
  rintro ⟨items, hitems, heq⟩
  have hblank : ' ' ∈ (english.listSeparator.intercalate items).toList := by
    cases hitems with
    | cons hfirst hrest =>
      cases hrest with
      | cons hsecond hnil =>
        cases hnil
        simp [english]
  have hphrase := congrArg String.toList (hshown.symm.trans heq)
  rw [toList_atPhrase] at hphrase
  have htoken : "*/2,JAN".toList = (english.listSeparator.intercalate items).toList :=
    List.append_cancel_left
      (show "At ".toList ++ "*/2,JAN".toList = "At ".toList ++ _ from hphrase)
  rw [← htoken] at hblank
  exact absurd hblank (by decide)

end Language
end CronSchedule
