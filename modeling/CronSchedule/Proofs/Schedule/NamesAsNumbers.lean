import CronSchedule.Proofs.Schedule.NamePlaces
import CronSchedule.Proofs.Schedule.WordByWord
import Mathlib.Data.List.Forall2

/-! # Names and numbers are interchangeable

A value of a month or a weekday is written by name or by number (`Field.WrittenAs`).  Writing
each value of an element by its number (`Field.Numbered`) changes nothing: the names of the
element are replaced by just these numbers before it is read (`resolve_upper_of_numbered`).
Only a Sunday that ends a range is a 7 instead of its 0, unless the range starts at 0.

So a token and the one with numbers in it become the same word (`normalize_eq_of_numbered`),
and an expression is accepted with the one as with the other, and has the same tables
(`Schedule.names_as_numbers`).
-/
namespace CronSchedule

open Text

namespace Field

/-- Whether a text is a value as it may be written: its number without leading zeros, or its
name in any letter case. -/
inductive WrittenAs (field : Field) : List Char → Nat → Prop
  | number (n : Nat) : WrittenAs field (decimal n) n
  | name {text : List Char} {name : Alias} (hname : name ∈ field.aliases)
      (htext : upper text = name.letters) : WrittenAs field text name.value

/-- The number that the last value of a range stands for. -/
def lastNumber (first : Nat) (text : List Char) (n : Nat) : Nat :=
  if upper text = ['S', 'U', 'N'] ∧ first ≠ 0 then 7 else n

/-- Whether the second text is an element with its values written as numbers. -/
inductive Numbered (field : Field) : List Char → List Char → Prop
  | single {value tail : List Char} {n : Nat} (hvalue : WrittenAs field value n)
      (htail : TailText field IsNumeral (upper tail)) :
      Numbered field (value ++ tail) (decimal n ++ tail)
  | range {first last tail : List Char} {m n : Nat} (hfirst : WrittenAs field first m)
      (hlast : WrittenAs field last n) (htail : TailText field IsNumeral (upper tail)) :
      Numbered field (first ++ '-' :: (last ++ tail))
        (decimal m ++ '-' :: (decimal (lastNumber m last n) ++ tail))

variable {field : Field} {text first last value tail left right element numbered token
  replacement : List Char} {m n : Nat}

/-! ## Values -/

theorem upper_decimal (n : Nat) : upper (decimal n) = decimal n :=
  upper_digits fun _ => isDigit_of_mem_decimal

theorem renumber_decimal (field : Field) (n : Nat) : field.renumber (decimal n) = decimal n :=
  renumber_digits fun _ => isDigit_of_mem_decimal

theorem isWhole_of_writtenAs (h : WrittenAs field value n) : field.IsWhole (upper value) := by
  cases h with
  | number =>
    rw [upper_decimal]
    exact .inl ⟨decimal_ne_nil n, fun _ => isDigit_of_mem_decimal⟩
  | name hname htext => exact .inr ⟨_, hname, htext⟩

theorem renumber_of_writtenAs (h : WrittenAs field value n) :
    field.renumber (upper value) = decimal n := by
  cases h with
  | number => rw [upper_decimal, renumber_decimal]
  | name hname htext => rw [htext, field.renumber_letters _ hname]

theorem writtenAs_of_aliasValue? (h : field.aliasValue? value = some n) :
    WrittenAs field value n := by
  obtain ⟨name, hfound, rfl⟩ := Option.map_eq_some_iff.mp h
  have hletters := List.find?_some hfound
  exact .name (List.mem_of_find?_eq_some hfound) (beq_iff_eq.mp hletters).symm

theorem isWhole_sunday_iff : field.IsWhole ['S', 'U', 'N'] ↔ field = .dayOfWeek := by
  constructor
  · rintro (⟨-, hdigits⟩ | ⟨name, hname, heq⟩)
    · exact absurd (hdigits 'S' List.mem_cons_self) (by decide)
    · have hother : ∀ name ∈ monthAliases, ['S', 'U', 'N'] ≠ name.letters := by decide
      cases field with
      | dayOfWeek => rfl
      | month => exact absurd heq (hother name hname)
      | _ => cases hname
  · rintro rfl
    exact .inr ⟨⟨'S', 'U', 'N', 0⟩, List.mem_cons_self, rfl⟩

/-- A weekday is written as 0 or by the name of Sunday when its number is 0. -/
theorem opens_iff (h : WrittenAs .dayOfWeek value n) :
    upper value = ['S', 'U', 'N'] ∨ upper value = ['0'] ↔ n = 0 := by
  have hnumber := renumber_of_writtenAs h
  constructor
  · rintro (hsunday | hzero)
    · rw [hsunday] at hnumber
      exact decimal_inj hnumber.symm
    · rw [hzero] at hnumber
      exact decimal_inj hnumber.symm
  · intro hzero
    cases h with
    | number =>
      rw [upper_decimal, hzero]
      exact .inr rfl
    | @name _ name hname htext =>
      have hsunday : ∀ name ∈ weekdayAliases, name.value = 0 → name.letters = ['S', 'U', 'N'] := by
        decide
      exact .inl (htext.trans (hsunday name hname hzero))

/-- The end of a range is closed to the number that it stands for. -/
theorem renumber_closing (hfirst : WrittenAs field first m) (hlast : WrittenAs field last n) :
    field.renumber (field.closing (upper first) (upper last)) =
      decimal (lastNumber m last n) := by
  have hwhole := isWhole_of_writtenAs hlast
  by_cases hcloses : upper last = ['S', 'U', 'N'] ∧ m ≠ 0
  · obtain ⟨hsunday, hm⟩ := hcloses
    rw [hsunday] at hwhole
    obtain rfl := isWhole_sunday_iff.mp hwhole
    have hopen := mt (opens_iff hfirst).mp hm
    rw [lastNumber, if_pos ⟨hsunday, hm⟩, closing, if_pos ⟨rfl, hopen⟩, hsunday]
    exact renumber_decimal .dayOfWeek 7
  · rw [lastNumber, if_neg hcloses]
    rcases field.closing_eq (upper first) (upper last) with heq | ⟨rfl, hopen, rest, hsunday, -⟩
    · rw [heq, renumber_of_writtenAs hlast]
    · -- the range would be closed, as the end can only be the name of Sunday
      have hsun : (⟨'S', 'U', 'N', 0⟩ : Alias) ∈ dayOfWeek.aliases := List.mem_cons_self
      rw [hsunday] at hwhole
      obtain rfl := (@eq_nil_of_isWhole .dayOfWeek _ [] rest hsun hwhole).2
      exact absurd ⟨hsunday, mt (opens_iff hfirst).mpr hopen⟩ hcloses

/-! ## What follows the values -/

theorem dash_not_mem_tail (h : TailText field IsNumeral tail) : '-' ∉ tail := by
  have hnumeral : ∀ text, IsNumeral text → '-' ∉ text := by
    intro text h hdash
    exact absurd (h.2 '-' hdash) (by decide)
  cases h with
  | none => exact List.not_mem_nil
  | step h => simpa using hnumeral _ h
  | last => decide
  | numberedLast => decide
  | nth _ h => simpa using hnumeral _ h

/-- What follows the values holds no name. -/
theorem renumber_append_tail (h : TailText field IsNumeral tail) :
    field.renumber (text ++ tail) = field.renumber text ++ tail := by
  rcases tailText_cases h with rfl | ⟨c, rest, rfl, -, hc, hrest⟩
  · rw [List.append_nil, List.append_nil]
  · rw [renumber_append_cons hc, renumber_eq_self hrest]

theorem closing_append_tail (h : TailText field IsNumeral tail) :
    field.closing left (right ++ tail) = field.closing left right ++ tail := by
  rcases tailText_cases h with rfl | ⟨c, rest, rfl, -, hc, -⟩
  · rw [List.append_nil, List.append_nil]
  · exact closing_append_cons hc

/-! ## Elements and tokens -/

/-- The names of an element are replaced by the numbers that it may be written with. -/
theorem resolve_upper_of_numbered (h : Numbered field element numbered) :
    field.resolve (upper element) = upper numbered := by
  cases h with
  | @single value tail n hvalue htail =>
    have hdash : '-' ∉ upper value ++ upper tail := by
      rw [List.mem_append]
      rintro (hmem | hmem)
      · exact not_mem_of_isWhole (isWhole_of_writtenAs hvalue) (by decide) field.separates_dash hmem
      · exact dash_not_mem_tail htail hmem
    rw [upper_append, upper_append, resolve_eq_renumber hdash, renumber_append_tail htail,
      renumber_of_writtenAs hvalue, upper_decimal]
  | @range first last tail m n hfirst hlast htail =>
    have hdash : '-' ∉ upper first :=
      not_mem_of_isWhole (isWhole_of_writtenAs hfirst) (by decide) field.separates_dash
    rw [upper_append_cons (by decide), upper_append_cons (by decide), upper_append, upper_append,
      resolve_append_dash hdash, closing_append_tail htail, renumber_append_tail htail,
      renumber_closing hfirst hlast, renumber_of_writtenAs hfirst, upper_decimal, upper_decimal]

/-- An element of numbers is one with its values written as numbers. -/
theorem numbered_self (h : Numbered field element numbered) : Numbered field numbered numbered := by
  cases h with
  | single hvalue htail => exact .single (.number _) htail
  | @range first last tail m n hfirst hlast htail =>
    have hnumber : ∀ k, lastNumber m (decimal k) k = k := by
      intro k
      refine if_neg ?_
      rintro ⟨hsunday, -⟩
      rw [upper_decimal] at hsunday
      have hletter : 'S' ∈ decimal k := hsunday ▸ List.mem_cons_self
      exact absurd (isDigit_of_mem_decimal hletter) (by decide)
    have hself := Numbered.range (.number m) (.number (lastNumber m last n)) htail
    rwa [hnumber] at hself

theorem forall₂_numbered_self {elements numbers : List (List Char)}
    (h : List.Forall₂ (Numbered field) elements numbers) :
    List.Forall₂ (Numbered field) numbers numbers := by
  induction h with
  | nil => exact .nil
  | cons hfirst _ ih => exact .cons (numbered_self hfirst) ih

theorem ne_question_of_numbered (h : Numbered field element numbered) : numbered ≠ ['?'] := by
  have hdigit : ∀ k rest, decimal k ++ rest ≠ ['?'] := by
    intro k rest heq
    obtain ⟨digit, digits, hdigits⟩ := List.exists_cons_of_ne_nil (decimal_ne_nil k)
    rw [hdigits, List.cons_append] at heq
    obtain ⟨rfl, -⟩ := List.cons.inj heq
    have hmem : '?' ∈ decimal k := hdigits ▸ List.mem_cons_self
    exact absurd (isDigit_of_mem_decimal hmem) (by decide)
  cases h with
  | single => exact hdigit _ _
  | range => exact hdigit _ _

/-- A token becomes the word of numbers that it may be written as. -/
theorem normalize_of_numbered
    (h : List.Forall₂ (Numbered field) (token.splitOn ',') (replacement.splitOn ',')) :
    field.normalize token = upper replacement := by
  have hquestion : token ≠ ['?'] := by
    rintro rfl
    have hlone : ['?'].splitOn ',' = [['?']] := by decide
    rw [hlone] at h
    obtain ⟨numbered, -, hnumbered, -, -⟩ := List.forall₂_cons_left_iff.mp h
    have hresolved : field.resolve ['?'] = ['?'] := by
      rw [resolve_eq_renumber (by decide)]
      cases field <;> decide
    refine ne_question_of_numbered hnumbered (eq_singleton_of_upper (by decide) ?_)
    rw [← resolve_upper_of_numbered hnumbered]
    exact hresolved
  have hpieces : ((token.splitOn ',').map upper).map field.resolve =
      (replacement.splitOn ',').map upper := by
    rw [List.map_map, ← List.forall₂_eq_eq_eq, List.forall₂_map_left_iff,
      List.forall₂_map_right_iff]
    exact h.imp fun _ _ => resolve_upper_of_numbered
  have hsplit : (field.replaceAliases (upper token)).splitOn ',' =
      (upper replacement).splitOn ',' := by
    rw [splitOn_replaceAliases, splitOn_upper, splitOn_upper, hpieces]
  rw [normalize, if_neg fun hlone => hquestion hlone.2, eq_of_splitOn_eq hsplit]

/-- A token and the one of numbers are the same word. -/
theorem normalize_eq_of_numbered
    (h : List.Forall₂ (Numbered field) (token.splitOn ',') (replacement.splitOn ',')) :
    field.normalize replacement = field.normalize token := by
  rw [normalize_of_numbered h, normalize_of_numbered (forall₂_numbered_self h)]

end Field

theorem MarkTable.parse_congr {field : Field} {token replacement : List Char}
    (h : field.normalize replacement = field.normalize token) :
    MarkTable.parse field replacement = MarkTable.parse field token := by
  unfold MarkTable.parse
  rw [h]

namespace Schedule

open Pattern

variable {expression other : String} {i : Nat} {field : Field} {token replacement : List Char}

/-- **Names and numbers are interchangeable.**  Where the values of one word of an expression
are written as numbers, in every element of its list, the expression is accepted as it was
before, and has the same tables. -/
theorem names_as_numbers
    (hfield : (fieldsOf (wordsOf expression).length)[i]? = some field)
    (htoken : (wordsOf expression)[i]? = some token)
    (hother : wordsOf other = (wordsOf expression).set i replacement)
    (hnumbered : List.Forall₂ (Field.Numbered field) (token.splitOn ',')
      (replacement.splitOn ',')) (options : ParseOptions) :
    ((∃ schedule, parseWith options expression = .ok schedule) ↔
      ∃ again, parseWith options other = .ok again) ∧
    ∀ schedule again, parseWith options expression = .ok schedule →
      parseWith options other = .ok again →
        ∀ field, again.pattern.table field = schedule.pattern.table field := by
  have hwords : WordByWord (fun field token replacement =>
      MarkTable.parse field replacement = MarkTable.parse field token) expression other :=
    wordByWord_of_set hfield htoken hother (fun _ _ => rfl)
      (MarkTable.parse_congr (Field.normalize_eq_of_numbered hnumbered))
  refine ⟨⟨?_, ?_⟩, ?_⟩
  · refine accepts_of_wordByWord hwords ?_
    intro field token replacement hsame hparses
    rwa [Parses, hsame]
  · refine accepts_of_wordByWord hwords.symm ?_
    intro field token replacement hsame hparses
    rwa [Parses, ← hsame]
  · intro schedule again hparse hagain field
    exact table_eq_of_wordByWord hwords hparse hagain fun _ _ hsame => hsame

/-- A Sunday that ends a range is 7, unless the range starts on Sunday itself. -/
theorem numbered_weekdays :
    List.Forall₂ (Field.Numbered .dayOfWeek) ("sun-SUN,1-Sun/2,fri#3".toList.splitOn ',')
      ("0-0,1-7/2,5#3".toList.splitOn ',') := by
  have htoken : "sun-SUN,1-Sun/2,fri#3".toList.splitOn ',' =
      ["sun".toList ++ '-' :: ("SUN".toList ++ []),
        decimal 1 ++ '-' :: ("Sun".toList ++ ['/', '2']),
        "fri".toList ++ ['#', '3']] := by decide
  have hreplacement : "0-0,1-7/2,5#3".toList.splitOn ',' =
      [decimal 0 ++ '-' :: (decimal (Field.lastNumber 0 "SUN".toList 0) ++ []),
        decimal 1 ++ '-' :: (decimal (Field.lastNumber 1 "Sun".toList 0) ++ ['/', '2']),
        decimal 5 ++ ['#', '3']] := by decide
  have hthree : IsNumeral ['3'] := ⟨List.cons_ne_nil _ _, List.forall_mem_singleton.mpr rfl⟩
  have htwo : IsNumeral ['2'] := ⟨List.cons_ne_nil _ _, List.forall_mem_singleton.mpr rfl⟩
  rw [htoken, hreplacement]
  refine .cons (.range ?_ ?_ .none) (.cons (.range (.number 1) ?_ (.step htwo))
    (.cons (.single ?_ (.nth rfl hthree)) .nil))
  all_goals exact Field.writtenAs_of_aliasValue? (by decide)

/-- A name may stand alone, or next to a number in a range. -/
theorem numbered_months :
    List.Forall₂ (Field.Numbered .month) ("jan,Feb-4/2,10-DEC".toList.splitOn ',')
      ("1,2-4/2,10-12".toList.splitOn ',') := by
  have htoken : "jan,Feb-4/2,10-DEC".toList.splitOn ',' =
      ["jan".toList ++ [], "Feb".toList ++ '-' :: (decimal 4 ++ ['/', '2']),
        decimal 10 ++ '-' :: ("DEC".toList ++ [])] := by decide
  have hreplacement : "1,2-4/2,10-12".toList.splitOn ',' =
      [decimal 1 ++ [],
        decimal 2 ++ '-' :: (decimal (Field.lastNumber 2 (decimal 4) 4) ++ ['/', '2']),
        decimal 10 ++ '-' :: (decimal (Field.lastNumber 10 "DEC".toList 12) ++ [])] := by decide
  have htwo : IsNumeral ['2'] := ⟨List.cons_ne_nil _ _, List.forall_mem_singleton.mpr rfl⟩
  rw [htoken, hreplacement]
  refine .cons (.single ?_ .none) (.cons (.range ?_ (.number 4) (.step htwo))
    (.cons (.range (.number 10) ?_ .none) .nil))
  all_goals exact Field.writtenAs_of_aliasValue? (by decide)

/-- The names of months and of weekdays are replaced one word after the other. -/
theorem names_as_numbers_months_and_weekdays :
    List.Forall₂ (Field.Numbered .month) ("jan,Feb-4/2,10-DEC".toList.splitOn ',')
        ("1,2-4/2,10-12".toList.splitOn ',') ∧
      List.Forall₂ (Field.Numbered .dayOfWeek) ("sun-SUN,1-Sun/2,fri#3".toList.splitOn ',')
        ("0-0,1-7/2,5#3".toList.splitOn ',') ∧
      ∃ schedule again,
        parseWith {} "0 0 * jan,Feb-4/2,10-DEC sun-SUN,1-Sun/2,fri#3" = .ok schedule ∧
        parseWith {} "0 0 * 1,2-4/2,10-12 0-0,1-7/2,5#3" = .ok again ∧
        ∀ field, again.pattern.table field = schedule.pattern.table field := by
  have hmonth : (wordsOf "0 0 * jan,Feb-4/2,10-DEC sun-SUN,1-Sun/2,fri#3")[3]? =
      some "jan,Feb-4/2,10-DEC".toList := by decide
  have hmonths : wordsOf "0 0 * 1,2-4/2,10-12 sun-SUN,1-Sun/2,fri#3" =
      (wordsOf "0 0 * jan,Feb-4/2,10-DEC sun-SUN,1-Sun/2,fri#3").set 3
        "1,2-4/2,10-12".toList := by decide
  have hweekday : (wordsOf "0 0 * 1,2-4/2,10-12 sun-SUN,1-Sun/2,fri#3")[4]? =
      some "sun-SUN,1-Sun/2,fri#3".toList := by decide
  have hweekdays : wordsOf "0 0 * 1,2-4/2,10-12 0-0,1-7/2,5#3" =
      (wordsOf "0 0 * 1,2-4/2,10-12 sun-SUN,1-Sun/2,fri#3").set 4 "0-0,1-7/2,5#3".toList := by
    decide
  obtain ⟨hfirst, hmiddle⟩ := names_as_numbers (by decide) hmonth hmonths numbered_months {}
  obtain ⟨hsecond, hlast⟩ := names_as_numbers (by decide) hweekday hweekdays numbered_weekdays {}
  have haccepted := toBool_eq_true_iff.mp (show (parseWith {}
    "0 0 * jan,Feb-4/2,10-DEC sun-SUN,1-Sun/2,fri#3").toBool = true by decide +kernel)
  obtain ⟨between, hbetween⟩ := hfirst.mp haccepted
  obtain ⟨again, hagain⟩ := hsecond.mp ⟨between, hbetween⟩
  obtain ⟨schedule, hparse⟩ := haccepted
  refine ⟨numbered_months, numbered_weekdays, schedule, again, hparse, hagain, ?_⟩
  intro field
  calc again.pattern.table field
    _ = between.pattern.table field := hlast between again hbetween hagain field
    _ = schedule.pattern.table field := hmiddle schedule between hparse hbetween field

end Schedule
end CronSchedule
