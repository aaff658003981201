import CronSchedule.Proofs.Element.Padding
import CronSchedule.Proofs.Schedule.WordByWord

/-! # Expressions with leading zeros

An expression with zeros in front of its numbers is accepted when the one without them is
(`parses_of_padded`), and has the same tables wherever the zero of a range `0-SUN` is left
alone (`Schedule.leading_zeros`).
-/
namespace CronSchedule

open Text

/-! ## Words -/

section Words

variable {field : Field} {token zeroed : List Char} {table : MarkTable}

/-- A word is read as it was when its normalized word has more zeros in front of numbers. -/
theorem MarkTable.parse_of_padded (h : MarkTable.parse field token = .ok table)
    (hp : Padded (field.normalize token) (field.normalize zeroed)) :
    MarkTable.parse field zeroed = .ok table := by
  obtain ⟨hallows, henter⟩ := MarkTable.parse_eq_ok_iff.mp h
  refine MarkTable.parse_eq_ok_iff.mpr ⟨?_, ?_⟩
  · exact hp.forall_mem hallows (Field.allows_iff.mpr (.inl rfl))
  · rw [← henter]
    have hstar : ∀ c ∈ ['*'], c.isDigit = false := List.forall_mem_singleton.mpr (by decide)
    rcases (MarkTable.adds_of_parse h).1 with hlone | hdenotes
    · rw [hlone] at hp ⊢
      rw [hp.eq_self hstar]
    · have hne : field.normalize token ≠ ['*'] := by
        intro heq
        rw [heq] at hdenotes
        obtain ⟨element, hdenoted⟩ := hdenotes ['*'] (by decide)
        exact MarkTable.not_denotes_star hdenoted
      have hne' : field.normalize zeroed ≠ ['*'] := by
        intro heq
        rw [heq] at hp
        exact hne (hp.eq_of_padded hstar).symm
      rw [enterToken, enterToken, if_neg hne, if_neg hne']
      refine (enterTexts_congr ?_).symm
      rw [← List.forall₂_eq_eq_eq, List.forall₂_map_left_iff, List.forall₂_map_right_iff]
      refine ((List.forall₂_and_left _ _).mpr ⟨hdenotes, hp.splitOn (by decide)⟩).imp ?_
      rintro text text' ⟨⟨element, hdenoted⟩, hpiece⟩
      rw [field_empty, Element.read_of_denotes hdenoted,
        Element.read_of_denotes (hdenoted.padded hpiece)]

/-- Zeros do not make a field refuse an element. -/
theorem Field.PaddedOrWidened.takes {text : List Char} (h : field.PaddedOrWidened text zeroed)
    (htakes : field.Takes text) : field.Takes zeroed := by
  obtain ⟨hallowed, element, hdenotes, hfits⟩ := htakes
  cases h with
  | padded hp =>
    exact ⟨hp.forall_mem hallowed (allows_iff.mpr (.inl rfl)), element, hdenotes.padded hp, hfits⟩
  | widened hfield _ hw =>
    subst hfield
    refine ⟨?_, exists_denotes_of_widened hdenotes hw⟩
    intro c hc
    rcases mem_of_widened hw hc with hmem | hdigit
    · exact hallowed c hmem
    · exact allows_iff.mpr (.inl hdigit)

/-- The elements of an accepted word, with zeros in front of its numbers. -/
theorem elements_padded_or_widened (h : Pattern.Parses field token)
    (hlone : ¬ (token = ['*'] ∨ token = ['?'])) (halone : Unglued field (upper token))
    (hp : Padded token zeroed) :
    List.Forall₂ (fun text zeroed => field.Takes text ∧ field.PaddedOrWidened text zeroed)
      ((upper token).splitOn ',') ((upper zeroed).splitOn ',') := by
  have helements : ∀ text ∈ (upper token).splitOn ',', field.Takes text ∧ Unglued field text := by
    intro text htext
    exact ⟨(parses_iff_takes hlone).mp h text htext, halone.of_infix (infix_of_mem_splitOn htext)⟩
  have hsplit : List.Forall₂ Padded ((upper token).splitOn ',') ((upper zeroed).splitOn ',') :=
    hp.upper.splitOn (by decide)
  have hpieces := (List.forall₂_and_left _ _).mpr ⟨helements, hsplit⟩
  refine hpieces.imp ?_
  rintro text zeroed ⟨⟨htakes, hunglued⟩, hpiece⟩
  obtain ⟨element, hdenotes, -⟩ := htakes.denotes
  exact ⟨htakes, Field.padded_or_widened_of_denotes htakes.allowed hdenotes hunglued hpiece⟩

theorem eq_of_isLone (h : token = ['*'] ∨ token = ['?']) (hp : Padded token zeroed) :
    zeroed = token := by
  refine hp.eq_self ?_
  rcases h with rfl | rfl
  · exact List.forall_mem_singleton.mpr rfl
  · exact List.forall_mem_singleton.mpr rfl

theorem not_isLone_of_padded (hlone : ¬ (token = ['*'] ∨ token = ['?']))
    (hp : Padded token zeroed) : ¬ (zeroed = ['*'] ∨ zeroed = ['?']) := by
  intro h
  have hself : zeroed = token := by
    refine hp.eq_of_padded ?_
    rcases h with rfl | rfl
    · exact List.forall_mem_singleton.mpr rfl
    · exact List.forall_mem_singleton.mpr rfl
  exact hlone (hself ▸ h)

/-- A word with zeros in front of its numbers is accepted. -/
theorem parses_of_padded (h : Pattern.Parses field token) (halone : Unglued field (upper token))
    (hp : Padded token zeroed) : Pattern.Parses field zeroed := by
  by_cases hlone : token = ['*'] ∨ token = ['?']
  · rwa [eq_of_isLone hlone hp]
  · rw [parses_iff_takes (not_isLone_of_padded hlone hp)]
    have hpieces := elements_padded_or_widened h hlone halone hp
    have htakes : List.Forall₂ (fun zeroed _ => field.Takes zeroed ∧ True)
        ((upper zeroed).splitOn ',') ((upper token).splitOn ',') :=
      hpieces.flip.imp fun zeroed text h => ⟨h.2.takes h.1, trivial⟩
    exact ((List.forall₂_and_left _ _).mp htakes).1

/-- A word with zeros in front of its numbers has the same table, if no range from 0 to Sunday
has lost its lone 0. -/
theorem parse_eq_of_padded (h : Pattern.Parses field token) (halone : Unglued field (upper token))
    (hp : Padded token zeroed) (hkeeps : field.KeepsZeros token zeroed) :
    MarkTable.parse field zeroed = MarkTable.parse field token := by
  by_cases hlone : token = ['*'] ∨ token = ['?']
  · rw [eq_of_isLone hlone hp]
  · obtain ⟨table, htable⟩ := h
    rw [htable]
    have hcomma : Char.isDigit ',' = false := rfl
    refine MarkTable.parse_of_padded htable (.of_splitOn hcomma ?_)
    rw [Field.splitOn_normalize fun heq => hlone (.inr heq),
      Field.splitOn_normalize fun heq => not_isLone_of_padded hlone hp (.inr heq),
      List.forall₂_map_left_iff, List.forall₂_map_right_iff]
    have hpieces := elements_padded_or_widened ⟨table, htable⟩ hlone halone hp
    refine List.forall₂_iff_zip.mpr ⟨hpieces.length_eq, ?_⟩
    intro text text' hmem
    cases (List.forall₂_zip hpieces hmem).2 with
    | padded hpadded => exact hpadded
    | widened hfield hzero => exact absurd hzero (hkeeps hfield _ hmem)

end Words

/-! ## Expressions -/

namespace Schedule

open Pattern

variable {options : ParseOptions} {expression other : String} {schedule : Schedule}

/-- The words of an accepted expression, next to those with zeros in front of their numbers. -/
theorem wordByWord_padded (hparse : parseWith options expression = .ok schedule)
    (halone : ∀ entry ∈ schedule.pattern.fieldTokens, Unglued entry.1 (upper entry.2.toList))
    (hp : Padded expression.toList other.toList) :
    WordByWord (fun field token zeroed =>
      Parses field token ∧ Unglued field (upper token) ∧ Padded token zeroed) expression other := by
  have hwords : List.Forall₂ Padded (wordsOf expression) (wordsOf other) := by
    rw [wordsOf, wordsOf, words_trim, words_trim]
    exact hp.words
  refine ⟨hwords.length_eq.symm, ?_⟩
  intro i field token zeroed hfield htoken hzeroed
  have hentry : (field, token) ∈
      (fieldsOf (wordsOf expression).length).zip (wordsOf expression) :=
    mem_zip_iff_getElem?.mpr ⟨i, hfield, htoken⟩
  have hpair : (token, zeroed) ∈ (wordsOf expression).zip (wordsOf other) :=
    mem_zip_iff_getElem?.mpr ⟨i, htoken, hzeroed⟩
  refine ⟨(exists_parseWith_iff.mp ⟨schedule, hparse⟩).2 _ hentry, ?_,
    List.forall₂_zip hwords hpair⟩
  obtain ⟨pattern, hpattern, rfl⟩ := map_eq_ok_iff.mp hparse
  have hunglued := halone (field, String.ofList token) (by
    rw [fieldTokens_eq hpattern, List.zip_map_right]
    exact List.mem_map_of_mem hentry)
  rwa [String.toList_ofList] at hunglued

/-- **Leading zeros.**  An accepted expression in which no name is glued to a digit or to
another name is accepted with zeros in front of its numbers, and only the table of the weekdays
may change.  It changes only by a range from 0 to Sunday, where the zero is no longer alone:
where there is none, all tables and the day rule stay as they are. -/
theorem leading_zeros (hparse : parseWith options expression = .ok schedule)
    (halone : ∀ entry ∈ schedule.pattern.fieldTokens, Unglued entry.1 (upper entry.2.toList))
    (hp : Padded expression.toList other.toList) :
    ∃ again, parseWith options other = .ok again ∧
      (∀ field, field ≠ .dayOfWeek → again.pattern.table field = schedule.pattern.table field) ∧
      (WordByWord Field.KeepsZeros expression other →
        (∀ field, again.pattern.table field = schedule.pattern.table field) ∧
          again.dayRule = schedule.dayRule) := by
  have hwords := wordByWord_padded hparse halone hp
  obtain ⟨again, hagain⟩ := accepts_of_wordByWord hwords
    (fun field token zeroed ⟨hparses, hunglued, hpadded⟩ _ =>
      parses_of_padded hparses hunglued hpadded) ⟨schedule, hparse⟩
  refine ⟨again, hagain, ?_, ?_⟩
  · intro field hfield
    refine table_eq_of_wordByWord hwords hparse hagain ?_
    rintro token zeroed ⟨hparses, hunglued, hpadded⟩
    exact parse_eq_of_padded hparses hunglued hpadded fun hday => absurd hday hfield
  · intro hkeeps
    have htables : ∀ field, again.pattern.table field = schedule.pattern.table field := by
      intro field
      refine table_eq_of_wordByWord (hwords.and hkeeps) hparse hagain ?_
      rintro token zeroed ⟨⟨hparses, hunglued, hpadded⟩, hzeros⟩
      exact parse_eq_of_padded hparses hunglued hpadded hzeros
    exact ⟨htables, dayRule_eq_of_tables htables
      ((bothDays_of_parseWith hagain).trans (bothDays_of_parseWith hparse).symm)⟩

/-- Zeros in front of a value, a step and the ends of ranges, next to a range from 0 to Sunday. -/
theorem leading_zeros_in_ranges :
    ∃ schedule again, parseWith {} "5 */2 * jan-3 SUN-6,0-SUN" = .ok schedule ∧
      (∀ entry ∈ schedule.pattern.fieldTokens, Unglued entry.1 (upper entry.2.toList)) ∧
      Padded "5 */2 * jan-3 SUN-6,0-SUN".toList "05 */002 * jan-03 SUN-06,0-SUN".toList ∧
      WordByWord Field.KeepsZeros "5 */2 * jan-3 SUN-6,0-SUN" "05 */002 * jan-03 SUN-06,0-SUN" ∧
      parseWith {} "05 */002 * jan-03 SUN-06,0-SUN" = .ok again ∧
      (∀ field, again.pattern.table field = schedule.pattern.table field) ∧
      again.dayRule = schedule.dayRule := by
  obtain ⟨schedule, hparse, htokens⟩ := map_eq_ok_iff.mp
    (show (parseWith {} "5 */2 * jan-3 SUN-6,0-SUN").map (·.pattern.fieldTokens) =
      .ok [(.minute, "5"), (.hour, "*/2"), (.dayOfMonth, "*"), (.month, "jan-3"),
        (.dayOfWeek, "SUN-6,0-SUN")] by decide +kernel)
  have halone : ∀ entry ∈ schedule.pattern.fieldTokens,
      Unglued entry.1 (upper entry.2.toList) := by
    rw [htokens]
    decide
  have hpadded : Padded "5 */2 * jan-3 SUN-6,0-SUN".toList
      "05 */002 * jan-03 SUN-06,0-SUN".toList := by
    have htext : "5 */2 * jan-3 SUN-6,0-SUN".toList = ['5'] ++ ' ' :: (['*'] ++ '/' :: (['2'] ++
        ' ' :: ("* jan".toList ++ '-' :: (['3'] ++ ' ' :: ("SUN".toList ++ '-' :: (['6'] ++
          ',' :: "0-SUN".toList)))))) := by decide
    have hother : "05 */002 * jan-03 SUN-06,0-SUN".toList = "05".toList ++ ' ' :: (['*'] ++
        '/' :: ("002".toList ++ ' ' :: ("* jan".toList ++ '-' :: ("03".toList ++ ' ' ::
          ("SUN".toList ++ '-' :: ("06".toList ++ ',' :: "0-SUN".toList)))))) := by decide
    have hnumber : ∀ (zeros : Nat) {digit : Char}, digit.isDigit = true →
        Padded [digit] (List.replicate zeros '0' ++ [digit]) := fun zeros _ hdigit =>
      .of_digits_zeros zeros (List.cons_ne_nil _ _) (List.forall_mem_singleton.mpr hdigit)
    rw [htext, hother]
    refine .append_cons (by decide) (hnumber 1 rfl) (.append_cons (by decide) (.refl _) ?_)
    refine .append_cons (by decide) (hnumber 2 rfl) (.append_cons (by decide) (.refl _) ?_)
    refine .append_cons (by decide) (hnumber 1 rfl) (.append_cons (by decide) (.refl _) ?_)
    exact .append_cons (by decide) (hnumber 1 rfl) (.refl _)
  have hkeeps : WordByWord Field.KeepsZeros "5 */2 * jan-3 SUN-6,0-SUN"
      "05 */002 * jan-03 SUN-06,0-SUN" := wordByWord_of_zip (by decide) (by decide)
  obtain ⟨again, hagain, -, hsame⟩ := leading_zeros hparse halone hpadded
  obtain ⟨htables, hrule⟩ := hsame hkeeps
  exact ⟨schedule, again, hparse, halone, hpadded, hkeeps, hagain, htables, hrule⟩

/-- A second zero makes a range from 0 to Sunday the whole week. -/
theorem zero_closes_range_to_sunday :
    Padded "0 0 * * 0-SUN".toList "0 0 * * 00-SUN".toList ∧
    ∃ schedule again, parseWith {} "0 0 * * 0-SUN" = .ok schedule ∧
      (∀ entry ∈ schedule.pattern.fieldTokens, Unglued entry.1 (upper entry.2.toList)) ∧
      parseWith {} "0 0 * * 00-SUN" = .ok again ∧
      again.pattern.weekdays ≠ schedule.pattern.weekdays ∧
      schedule.dayRule = .dayOfWeek ∧ again.dayRule = .any := by
  refine ⟨?_, ?_⟩
  · have hzero : Padded ['0'] ['0', '0'] :=
      .of_digits_zeros 1 (List.cons_ne_nil _ _) (List.forall_mem_singleton.mpr rfl)
    have hrange : Padded "0-SUN".toList "00-SUN".toList :=
      hzero.append_cons (c := '-') (by decide) (.refl ['S', 'U', 'N'])
    exact (Padded.refl "0 0 * *".toList).append_cons (c := ' ') (by decide) hrange
  · obtain ⟨schedule, hparse, hschedule⟩ := map_eq_ok_iff.mp
      (show (parseWith {} "0 0 * * 0-SUN").map (fun schedule => (schedule.pattern.fieldTokens,
          schedule.pattern.weekdays.isFull, schedule.dayRule)) =
        .ok ([(.minute, "0"), (.hour, "0"), (.dayOfMonth, "*"), (.month, "*"),
          (.dayOfWeek, "0-SUN")], false, .dayOfWeek) by decide +kernel)
    obtain ⟨again, hagain, hfull⟩ := map_eq_ok_iff.mp
      (show (parseWith {} "0 0 * * 00-SUN").map (fun schedule =>
          (schedule.pattern.weekdays.isFull, schedule.dayRule)) = .ok (true, .any)
        by decide +kernel)
    simp only [Prod.mk.injEq] at hschedule hfull
    obtain ⟨htokens, hpartial, hrule⟩ := hschedule
    refine ⟨schedule, again, hparse, ?_, hagain, ?_, hrule, hfull.2⟩
    · rw [htokens]
      decide
    · intro heq
      rw [← heq, hfull.1] at hpartial
      cases hpartial

end Schedule
end CronSchedule
