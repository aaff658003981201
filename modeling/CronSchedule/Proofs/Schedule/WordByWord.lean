import CronSchedule.Proofs.Schedule.Representation
import Mathlib.Data.List.Forall2

/-! # Expressions that differ word by word

An expression is parsed one word at a time, each in the field of its place.  So what is kept
from word to word is kept of the whole: where each word of an accepted expression is replaced
by one that is accepted in its field, the result is accepted (`accepts_of_wordByWord`), and a
field whose word has the same table as before has it in the pattern as well
(`table_eq_of_wordByWord`).
-/
namespace CronSchedule

open Text

namespace Pattern

/-- Whether two expressions have as many words, and each of them stands in a relation with
the one in its place, in the field of the place. -/
structure WordByWord (related : Field → List Char → List Char → Prop)
    (expression other : String) : Prop where
  length_eq : (wordsOf other).length = (wordsOf expression).length
  related : ∀ (i : Nat) (field : Field) (token replacement : List Char),
    (fieldsOf (wordsOf expression).length)[i]? = some field →
    (wordsOf expression)[i]? = some token → (wordsOf other)[i]? = some replacement →
      related field token replacement

variable {related related' : Field → List Char → List Char → Prop} {expression other : String}
  {options options' : ParseOptions} {pattern later : Pattern} {field : Field}

/-- One word is replaced, and the others stay. -/
theorem wordByWord_of_set {i : Nat} {token replacement : List Char}
    (hfield : (fieldsOf (wordsOf expression).length)[i]? = some field)
    (htoken : (wordsOf expression)[i]? = some token)
    (hother : wordsOf other = (wordsOf expression).set i replacement)
    (hrefl : ∀ field token, related field token token)
    (hrelated : related field token replacement) : WordByWord related expression other := by
  refine ⟨by rw [hother, List.length_set], ?_⟩
  intro j field' token' replacement' hfield' htoken' hreplacement
  rw [hother] at hreplacement
  by_cases hij : i = j
  · subst hij
    obtain rfl := Option.some.inj (hfield.symm.trans hfield')
    obtain rfl := Option.some.inj (htoken.symm.trans htoken')
    obtain ⟨hlt, -⟩ := List.getElem?_eq_some_iff.mp htoken
    rw [List.getElem?_set_self hlt] at hreplacement
    obtain rfl := Option.some.inj hreplacement
    exact hrelated
  · rw [List.getElem?_set_ne hij] at hreplacement
    obtain rfl := Option.some.inj (htoken'.symm.trans hreplacement)
    exact hrefl field' token'

/-- The words stand in a relation when they do so entry by entry. -/
theorem wordByWord_of_zip (hlength : (wordsOf other).length = (wordsOf expression).length)
    (h : ∀ entry ∈ (fieldsOf (wordsOf expression).length).zip
      ((wordsOf expression).zip (wordsOf other)), related entry.1 entry.2.1 entry.2.2) :
    WordByWord related expression other := by
  refine ⟨hlength, ?_⟩
  intro i field token replacement hfield htoken hreplacement
  refine h (field, token, replacement) (mem_zip_iff_getElem?.mpr ⟨i, hfield, ?_⟩)
  exact List.getElem?_zip_eq_some.mpr ⟨htoken, hreplacement⟩

theorem wordByWord_of_forall₂ {kept : List Char → List Char → Prop}
    (h : List.Forall₂ kept (wordsOf expression) (wordsOf other)) :
    WordByWord (fun _ => kept) expression other :=
  ⟨h.length_eq.symm, fun i _ _ _ _ htoken hreplacement =>
    List.forall₂_zip h (mem_zip_iff_getElem?.mpr ⟨i, htoken, hreplacement⟩)⟩

theorem WordByWord.symm (h : WordByWord related expression other) :
    WordByWord (fun field token replacement => related field replacement token) other
      expression := by
  refine ⟨h.length_eq.symm, ?_⟩
  intro i field token replacement hfield htoken hreplacement
  rw [h.length_eq] at hfield
  exact h.related i field replacement token hfield hreplacement htoken

theorem WordByWord.and (h : WordByWord related expression other)
    (h' : WordByWord related' expression other) :
    WordByWord (fun field token replacement =>
      related field token replacement ∧ related' field token replacement) expression other :=
  ⟨h.length_eq, fun i field token replacement hfield htoken hreplacement =>
    ⟨h.related i field token replacement hfield htoken hreplacement,
      h'.related i field token replacement hfield htoken hreplacement⟩⟩

/-- The tokens of a parsed pattern are the words, in the fields of their places. -/
theorem fieldTokens_eq (h : Pattern.parse options expression = .ok pattern) :
    pattern.fieldTokens =
      (fieldsOf (wordsOf expression).length).zip ((wordsOf expression).map String.ofList) := by
  obtain ⟨-, htokens, -, -⟩ := ofWords_inv (parse_inv h).2
  rw [fieldTokens, hasSeconds, htokens, List.length_map, fieldsOf]
  by_cases hsix : (wordsOf expression).length = 6
  · rw [if_pos hsix, if_pos (beq_iff_eq.mpr hsix)]
  · rw [if_neg hsix, if_neg fun h => hsix (beq_iff_eq.mp h)]

/-- The table of a field is that of its word. -/
theorem table_eq_settle (h : Pattern.parse options expression = .ok pattern) {i : Nat}
    {token : List Char} (hfield : (fieldsOf (wordsOf expression).length)[i]? = some field)
    (htoken : (wordsOf expression)[i]? = some token) :
    ∃ table, MarkTable.parse field token = .ok table ∧
      pattern.table field = settle field table := by
  have hmem : (field, String.ofList token) ∈ pattern.fieldTokens := by
    rw [fieldTokens_eq h]
    refine mem_zip_iff_getElem?.mpr ⟨i, hfield, ?_⟩
    rw [List.getElem?_map, htoken, Option.map_some]
  obtain ⟨table, hparse, htable⟩ := (exists_parse_of_parse h).1 field _ hmem
  rw [String.toList_ofList] at hparse
  exact ⟨table, hparse, htable⟩

/-- A field has a word, or it is that of the seconds not written. -/
theorem exists_word_or_zeroSeconds (h : Pattern.parse options expression = .ok pattern)
    (field : Field) :
    (∃ (i : Nat) (token : List Char), (fieldsOf (wordsOf expression).length)[i]? = some field ∧
      (wordsOf expression)[i]? = some token) ∨
    (wordsOf expression).length ≠ 6 ∧ field = .second ∧ pattern.table field = .zeroSeconds := by
  obtain ⟨-, hfields, hseconds⟩ := exists_parse_of_parse h
  obtain ⟨-, htokens, -, -⟩ := ofWords_inv (parse_inv h).2
  rcases hfields field with ⟨token, hmem⟩ | ⟨rfl, hfew⟩
  · rw [fieldTokens_eq h] at hmem
    obtain ⟨i, hfield, htoken⟩ := mem_zip_iff_getElem?.mp hmem
    rw [List.getElem?_map, Option.map_eq_some_iff] at htoken
    obtain ⟨word, hword, -⟩ := htoken
    exact .inl ⟨i, word, hfield, hword⟩
  · refine .inr ⟨?_, rfl, hseconds hfew⟩
    intro hsix
    rw [hasSeconds, htokens, List.length_map, hsix] at hfew
    cases hfew

/-- The tables of a field in two such expressions are those of two related words, unless they
are those of the seconds not written. -/
theorem tables_of_wordByWord (h : WordByWord related expression other)
    (hpattern : Pattern.parse options expression = .ok pattern)
    (hlater : Pattern.parse options' other = .ok later) (field : Field) :
    (∃ token replacement table table', related field token replacement ∧
      (MarkTable.parse field token = .ok table ∧ pattern.table field = settle field table) ∧
      MarkTable.parse field replacement = .ok table' ∧ later.table field = settle field table') ∨
    field = .second ∧ pattern.table field = .zeroSeconds ∧ later.table field = .zeroSeconds := by
  rcases exists_word_or_zeroSeconds hpattern field with
    ⟨i, token, hfield, htoken⟩ | ⟨hfew, hfield, hzero⟩
  · obtain ⟨hlt, -⟩ := List.getElem?_eq_some_iff.mp htoken
    rw [← h.length_eq] at hlt
    have hreplacement := List.getElem?_eq_getElem hlt
    obtain ⟨table, htable⟩ := table_eq_settle hpattern hfield htoken
    obtain ⟨table', htable'⟩ := table_eq_settle hlater (h.length_eq.symm ▸ hfield) hreplacement
    exact .inl ⟨token, _, table, table', h.related i field token _ hfield htoken hreplacement,
      htable, htable'⟩
  · rcases exists_word_or_zeroSeconds hlater field with ⟨i, token, hfield', -⟩ | ⟨-, -, hzero'⟩
    · -- without seconds no word stands in their field
      rw [fieldsOf, if_neg (h.length_eq.symm ▸ hfew)] at hfield'
      obtain rfl := hfield
      exact absurd (List.mem_of_getElem? hfield') (by decide)
    · exact .inr ⟨hfield, hzero, hzero'⟩

end Pattern

namespace Schedule

open Pattern

variable {related : Field → List Char → List Char → Prop} {expression other : String}
  {options options' : ParseOptions} {schedule again : Schedule} {field : Field}

theorem accepts_of_wordByWord (h : WordByWord related expression other)
    (hkeeps : ∀ field token replacement, related field token replacement →
      Parses field token → Parses field replacement)
    (hparse : ∃ schedule, parseWith options expression = .ok schedule) :
    ∃ schedule, parseWith options other = .ok schedule := by
  obtain ⟨haccepts, hparses⟩ := exists_parseWith_iff.mp hparse
  refine exists_parseWith_iff.mpr ⟨h.length_eq ▸ haccepts, ?_⟩
  rintro ⟨field, replacement⟩ hentry
  obtain ⟨i, hfield, hreplacement⟩ := mem_zip_iff_getElem?.mp hentry
  rw [h.length_eq] at hfield
  obtain ⟨hlt, -⟩ := List.getElem?_eq_some_iff.mp hreplacement
  rw [h.length_eq] at hlt
  have htoken := List.getElem?_eq_getElem hlt
  refine hkeeps field _ replacement (h.related i field _ replacement hfield htoken hreplacement) ?_
  exact hparses (field, _) (mem_zip_iff_getElem?.mpr ⟨i, hfield, htoken⟩)

theorem table_eq_of_wordByWord (h : WordByWord related expression other)
    (hparse : parseWith options expression = .ok schedule)
    (hagain : parseWith options' other = .ok again)
    (hsame : ∀ token replacement, related field token replacement →
      MarkTable.parse field replacement = MarkTable.parse field token) :
    again.pattern.table field = schedule.pattern.table field := by
  obtain ⟨pattern, hpattern, rfl⟩ := map_eq_ok_iff.mp hparse
  obtain ⟨later, hlater, rfl⟩ := map_eq_ok_iff.mp hagain
  rcases tables_of_wordByWord h hpattern hlater field with
    ⟨token, replacement, table, table', hrelated, ⟨htable, heq⟩, htable', heq'⟩ |
      ⟨-, hzero, hzero'⟩
  · rw [hsame token replacement hrelated, htable, Except.ok.injEq] at htable'
    rw [heq, heq', htable']
  · rw [hzero, hzero']

end Schedule
end CronSchedule
