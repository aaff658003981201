import CronSchedule.Proofs.Explanation.SamePhrase
import CronSchedule.Proofs.Schedule.Representation

/-! # The shape of a field says what its table holds

The shape of a field is taken from its token alone, the table from the same token in capitals
with its names replaced.  `Shape.AgreesWith` says what each shape promises about the table:
the wildcard that it is full, a step, a range or a lone value which values match plainly
(`MarkTable.MatchesJust`).  A promise about values that are numbers or names is made for all
that stand for a number (`Language.numberOf?`).

`shape_agrees_with_table` is that every field of an accepted expression keeps the promise of
its shape.  A list promises nothing, and neither does a value that stands for no number.
-/
namespace CronSchedule

open Text

/-! ## What shapes promise -/

/-- Whether a value is so many steps after the first, and not after the last. -/
def Reaches (first last step value : Nat) : Prop :=
  value ≤ last ∧ ∃ k, value = first + step * k

/-- Whether the values that match plainly in the table of a field are just those that are
told, Sunday being 0 only. -/
def MarkTable.MatchesJust (table : MarkTable) (field : Field) (tells : Nat → Prop) : Prop :=
  ∀ value, table.carries value .plain = true ↔ field.Settled (fun told _ => tells told) value .plain

/-- The number that ends a range: a Sunday that ends a range of other days is 7. -/
def Field.rangeEnd (field : Field) (first last : Nat) : Nat :=
  if field = .dayOfWeek ∧ last = 0 ∧ first ≠ 0 then 7 else last

/-- Whether the table of a field holds what the shape of its token promises. -/
def Shape.AgreesWith (field : Field) (table : MarkTable) : Shape → Prop
  | .wildcard => table.isFull = true
  | .step n => table.MatchesJust field (Reaches field.min field.max n)
  | .range first last count => ∀ m n, Language.numberOf? field first = some m →
      Language.numberOf? field last = some n →
        table.MatchesJust field (Reaches m (field.rangeEnd m n) (count.getD 1))
  | .upFrom first n => ∀ m, Language.numberOf? field first = some m →
      table.MatchesJust field (Reaches m field.max n)
  | .list _ => True
  | .value text => ∀ n, Language.numberOf? field text = some n → table.MatchesJust field (· = n)

/-- Whether a number that starts a range of weekdays is written without leading zeros. -/
def Field.StartsBare (field : Field) (token : List Char) : Prop :=
  field = .dayOfWeek → ∀ sides ∈ cutAt? '-' token, ∀ n ∈ digits? sides.1, sides.1 = decimal n

instance (field : Field) (token : List Char) : Decidable (field.StartsBare token) :=
  inferInstanceAs (Decidable (_ → ∀ sides ∈ cutAt? '-' token, ∀ n ∈ digits? sides.1, _))

/-! ## Tables -/

namespace MarkTable

variable {field : Field} {table result : MarkTable} {tells : Nat → Prop} {values : List Nat}
  {first last step : Nat}

/-- Values that were set plainly, and no others, match plainly. -/
theorem matchesJust_of_setAll (h : (empty field).setAll Mark.plain.bits values = .ok table)
    (htells : ∀ value, value ∈ values ↔ tells value) :
    (Pattern.settle field table).MatchesJust field tells := by
  intro value
  have hadds := (adds_of_setAll (complete_empty field) h).congr
    (fun value how => and_congr_left' (htells value)) fun _ => Iff.rfl
  rw [carries_settle hadds]
  simp only [Field.Settled, and_true]

theorem matchesJust_of_progression (hpos : 0 < step) (hlast : last ≤ field.max)
    (h : (empty field).setAll Mark.plain.bits (progression first last step) = .ok table) :
    (Pattern.settle field table).MatchesJust field (Reaches first last step) :=
  matchesJust_of_setAll h fun _ => mem_progression hpos hlast

/-- A table in which every value of its field matches plainly is full. -/
theorem MatchesJust.isFull (hcomplete : table.Complete) (hfield : table.field = field)
    (h : table.MatchesJust field (Reaches field.min field.max 1)) : table.isFull = true := by
  rw [isFull_iff hcomplete, hfield]
  intro value hmin hmax
  have hreaches : value ≤ field.max → Reaches field.min field.max 1 value :=
    fun hle => ⟨hle, value - field.min, by omega⟩
  apply (h value).mpr
  unfold Field.Settled
  by_cases hweekday : field = .dayOfWeek
  · rw [if_pos hweekday] at hmax ⊢
    subst hweekday
    have hle : value ≤ Field.dayOfWeek.max := Nat.le_trans hmax (by decide)
    exact ⟨by omega, .inl (hreaches hle)⟩
  · rw [if_neg hweekday] at hmax ⊢
    exact hreaches hmax

end MarkTable

/-! ## Ranges that open plainly -/

namespace Field

variable {field : Field} {first rest token : List Char} {n : Nat}

theorem opensPlainly_of_no_dash (h : '-' ∉ token) : field.OpensPlainly token := by
  intro sides hcut
  rw [cutAt?_eq_none_iff.mpr (not_mem_upper (by decide) h)] at hcut
  cases hcut

/-- A range that starts with a name or with a number without leading zeros opens plainly. -/
theorem opensPlainly_of_numberOf? (hlegible : field.Legible first) (hdash : '-' ∉ first)
    (hn : Language.numberOf? field first = some n)
    (hbare : field.StartsBare (first ++ '-' :: rest)) :
    field.OpensPlainly (first ++ '-' :: rest) := by
  rintro ⟨left, right⟩ hcut
  have hupper : cutAt? '-' (upper (first ++ '-' :: rest)) = some (upper first, upper rest) :=
    cutAt?_eq_some_iff.mpr ⟨upper_append_cons (by decide), not_mem_upper (by decide) hdash⟩
  cases hupper.symm.trans hcut
  -- only ranges of weekdays can fail to open plainly
  intro hfield
  have hside : (first, rest) ∈ cutAt? '-' (first ++ '-' :: rest) :=
    cutAt?_eq_some_iff.mpr ⟨rfl, hdash⟩
  refine startsPlainly_of_whole ?_ hfield
  rcases Language.digits_or_name_of_numberOf? hlegible hn with
    ⟨hdigits, hself⟩ | ⟨name, hname, h, -⟩
  · rw [hself]
    exact .inl ⟨n, hbare hfield _ hside n hdigits⟩
  · exact .inr ⟨name, hname, h⟩

end Field

/-! ## Tokens -/

namespace Language

variable {field : Field} {first last token : List Char} {table : MarkTable} {m n k : Nat}

/-- A token for a range between numbers takes what its step reaches. -/
theorem matchesJust_range (h : MarkTable.parse field token = .ok table) (hdash : '-' ∉ first)
    (hspan : IsSpanStep token (first ++ '-' :: last) k) (hbare : field.StartsBare token)
    (hm : numberOf? field first = some m) (hn : numberOf? field last = some n) :
    (Pattern.settle field table).MatchesJust field (Reaches m (field.rangeEnd m n) k) := by
  obtain ⟨rest, rfl⟩ : ∃ rest, token = first ++ '-' :: rest := by
    rcases hspan.form with ⟨rfl, -⟩ | ⟨count, rfl, -⟩
    · exact ⟨last, rfl⟩
    · exact ⟨last ++ '/' :: count, by simp⟩
  have hlegible := (MarkTable.entered_of_parse h hspan.not_isLone).1
  have hfirst := (Field.legible_append_cons field.separates_dash (by decide) hlegible).1
  have hplain := parsesPlainly_of_opens h hspan.no_comma
    (Field.opensPlainly_of_numberOf? hfirst hdash hm hbare)
  obtain ⟨hpos, base, hread, hset⟩ := setAll_of_isSpanStep hplain hspan
  obtain ⟨m', n', mark, hrange, rfl⟩ := hread.range_inv hdash hspan.no_slash
  obtain rfl : m = m' :=
    Option.some.inj ((digits?_of_numberOf? hfirst hm).symm.trans hrange.starts)
  have hle := hrange.ascends
  -- the end is read as the number it stands for, or it is a Sunday that became 7
  have hend : field.rangeEnd m n = n' ∧ mark = .plain := by
    rcases digits?_closing hrange.legible hn hrange.plain hrange.starts with
      hdigits | ⟨⟨hfield, rfl, hpos⟩, hdigits⟩
    · obtain ⟨rfl, rfl⟩ := Element.single.inj (hrange.ends.eq_single hdigits)
      exact ⟨if_neg fun hsunday => by omega, rfl⟩
    · obtain ⟨rfl, rfl⟩ := Element.single.inj (hrange.ends.eq_single hdigits)
      exact ⟨if_pos ⟨hfield, rfl, by omega⟩, rfl⟩
  obtain ⟨rfl, rfl⟩ := hend
  exact MarkTable.matchesJust_of_progression hpos (Denotes.range_le_max hread.reads) hset

/-- A token from a number on takes what its step reaches up to the largest value. -/
theorem matchesJust_upFrom (h : MarkTable.parse field token = .ok table)
    (hspan : IsSpanStep token first k) (hdash : '-' ∉ first)
    (hm : numberOf? field first = some m) :
    (Pattern.settle field table).MatchesJust field (Reaches m field.max k) := by
  rcases hspan.form with ⟨-, hmem, -⟩ | ⟨count, rfl, hk⟩
  · exact absurd hmem hdash
  · have hlegible := (MarkTable.entered_of_parse h hspan.not_isLone).1
    have hsides := Field.legible_append_cons field.separates_slash (by decide) hlegible
    have hcount := ((numeralUpTo?_eq_some_iff hsides.2.plus_not_mem).mp hk).1
    have hnone : '-' ∉ first ++ '/' :: count := by
      simp [hdash, not_mem_of_digits? hcount (c := '-') (by decide)]
    have hplain := parsesPlainly_of_opens h hspan.no_comma (Field.opensPlainly_of_no_dash hnone)
    obtain ⟨hpos, base, hread, hset⟩ := setAll_of_isSpanStep hplain hspan
    rw [hread.reads.eq_single hdash (digits?_of_numberOf? hsides.1 hm)] at hset
    exact MarkTable.matchesJust_of_progression hpos (Nat.le_refl _) hset

/-- A token that stands for a number takes that number. -/
theorem matchesJust_value (h : MarkTable.parse field token = .ok table) (hlone : ¬ IsLone token)
    (hn : numberOf? field token = some n) :
    (Pattern.settle field table).MatchesJust field (· = n) := by
  have hset := MarkTable.setAll_of_enter (enter_of_numberOf? h hlone hn) Element.noConfusion
  apply MarkTable.matchesJust_of_setAll hset
  intro value
  rw [Element.values, List.mem_singleton]

/-- The table of an accepted token holds what the shape of the token promises. -/
theorem agreesWith_settle (h : MarkTable.parse field token = .ok table)
    (hbare : field.StartsBare token) :
    (Shape.ofToken token).AgreesWith field (Pattern.settle field table) := by
  have hwhole : ∀ {k : Nat}, IsWholeStep token k →
      (Pattern.settle field table).MatchesJust field (Reaches field.min field.max k) := by
    intro k hk
    obtain ⟨hpos, hset⟩ := setAll_of_isWholeStep h hk
    exact MarkTable.matchesJust_of_progression hpos (Nat.le_refl _) hset
  have hshaped := shaped_ofToken token
  generalize Shape.ofToken token = shape at hshaped
  cases hshaped with
  | wildcard hk =>
    have hfield : (Pattern.settle field table).field = field :=
      (Pattern.field_settle field table).trans (MarkTable.field_of_parse h)
    exact (hwhole hk).isFull (Pattern.complete_settle h) hfield
  | step hk => exact hwhole hk
  | range hdash hspan => exact fun m n hm hn => matchesJust_range h hdash hspan hbare hm hn
  | upFrom hdash hspan => exact fun m hm => matchesJust_upFrom h hspan hdash hm
  | list => trivial
  | value hlone => exact fun n hn => matchesJust_value h hlone hn

end Language

namespace Schedule

/-- **Shapes agree with tables.**  In an accepted expression the table of every field holds
what the shape of its token promises, as long as a number that starts a range of weekdays is
written without leading zeros. -/
theorem shape_agrees_with_table {options : ParseOptions} {expression : String}
    {schedule : Schedule} (hparse : parseWith options expression = .ok schedule) {field : Field}
    {token : String} (htoken : (field, token) ∈ schedule.pattern.fieldTokens)
    (hbare : field.StartsBare token.toList) :
    (Shape.ofToken token.toList).AgreesWith field (schedule.pattern.table field) := by
  obtain ⟨pattern, hpattern, rfl⟩ := map_eq_ok_iff.mp hparse
  obtain ⟨table, htable, hsettle⟩ := (Pattern.exists_parse_of_parse hpattern).1 field token htoken
  rw [hsettle]
  exact Language.agreesWith_settle htable hbare

/-- A range of weekdays that ends on Sunday, behind a step, an open range, the question mark
and a name. -/
theorem shape_agrees_with_table_weekend :
    Field.dayOfWeek.StartsBare "FRI-sun/2".toList ∧
      ∃ schedule, parseWith {} "*/20 8/5 ? feb FRI-sun/2" = .ok schedule ∧
        (.dayOfWeek, "FRI-sun/2") ∈ schedule.pattern.fieldTokens ∧
        Shape.ofToken "FRI-sun/2".toList = .range "FRI".toList "sun".toList (some 2) ∧
        schedule.pattern.weekdays.MatchesJust .dayOfWeek (Reaches 5 7 2) ∧
        schedule.pattern.months.MatchesJust .month (· = 2) ∧
        schedule.pattern.days.isFull = true ∧
        schedule.pattern.hours.MatchesJust .hour (Reaches 8 23 5) ∧
        schedule.pattern.minutes.MatchesJust .minute (Reaches 0 59 20) := by
  obtain ⟨schedule, hparse, htokens⟩ := map_eq_ok_iff.mp
    (show (parseWith {} "*/20 8/5 ? feb FRI-sun/2").map (·.pattern.fieldTokens) =
      .ok [(.minute, "*/20"), (.hour, "8/5"), (.dayOfMonth, "?"), (.month, "feb"),
        (.dayOfWeek, "FRI-sun/2")] by decide +kernel)
  have hbare : Field.dayOfWeek.StartsBare "FRI-sun/2".toList := by decide
  have hagrees : ∀ field token, (field, token) ∈ schedule.pattern.fieldTokens →
      field.StartsBare token.toList →
        (Shape.ofToken token.toList).AgreesWith field (schedule.pattern.table field) :=
    fun field token htoken hbare => shape_agrees_with_table hparse htoken hbare
  have hmem : (.dayOfWeek, "FRI-sun/2") ∈ schedule.pattern.fieldTokens := by
    rw [htokens]
    simp
  rw [htokens] at hagrees
  refine ⟨hbare, schedule, hparse, hmem, by decide, ?_, ?_, ?_, ?_, ?_⟩
  · exact hagrees .dayOfWeek _ (by simp) hbare 5 0 (by decide) (by decide)
  · exact hagrees .month "feb" (by simp) nofun 2 (by decide)
  · exact hagrees .dayOfMonth "?" (by simp) nofun
  · exact hagrees .hour "8/5" (by simp) nofun 8 (by decide)
  · exact hagrees .minute "*/20" (by simp) nofun

end Schedule
end CronSchedule
