import CronSchedule.Proofs.FreeText.Forms
import CronSchedule.Proofs.Schedule.WordByWord

/-! # Plain expressions in free text

A plain expression consists of five or six forms.  Between texts that hold no digit and no star
it makes one candidate, which holds its first four forms as they stand, but ends right before
the first step after them (`exists_candidate`).  So a plain expression is found whole exactly
when its last forms, from the fifth on, have no step (`extractExpression?_plain`).

Where only the last form has one, the expression that is found instead has a star in its place,
and it is always valid (`isValid_of_stars`): nothing tells that a step was lost.
-/
namespace CronSchedule

open Text

namespace FreeText

variable {form gap text taken rest back after before : List Char} {pieces : List (List Char)}

/-! ## The last forms of a candidate -/

theorem slash_not_mem_gap (h : IsGap gap) : '/' ∉ gap :=
  fun hmem => absurd (h.2 '/' hmem) (by decide)

theorem isDigit_head_of_forall (h : ∀ c ∈ text, opensForm c = false) :
    ∀ c, text.head? = some c → c.isDigit = false := by
  intro c hc
  have hnone := h c (List.mem_of_mem_head? hc)
  rw [opensForm, Bool.or_eq_false_iff] at hnone
  exact hnone.1

theorem gapAndForm?_append (h : IsForm form) (hgap : IsGap gap)
    (hend : ∀ c, rest.head? = some c → c.isDigit = false) :
    gapAndForm? (gap ++ (form ++ rest)) = some (gap ++ beforeStep form, fromStep form ++ rest) := by
  have hrun : run? isBlank (gap ++ (form ++ rest)) = some (gap, form ++ rest) :=
    run?_eq_some_iff.mpr ⟨hgap.1, hgap.2, fun _ hc => h.isWord.isBlank_head hc, rfl⟩
  rw [gapAndForm?, hrun]
  simp only [Option.bind_eq_bind, Option.bind_some, shortForm?_append h hend]
  rfl

theorem gapAndForm?_slash (text : List Char) : gapAndForm? ('/' :: text) = none := by
  have hrun : run? isBlank ('/' :: text) = none :=
    if_pos (List.takeWhile_cons_of_neg (by decide))
  rw [gapAndForm?, hrun]
  rfl

theorem exists_gap_of_gapAndForm? (h : gapAndForm? text = some (taken, rest)) :
    ∃ gap form, IsGap gap ∧ IsForm form ∧ taken = gap ++ form ∧ gap ++ (form ++ rest) = text := by
  simp only [gapAndForm?, Option.bind_eq_bind, Option.bind_eq_some_iff, Prod.exists] at h
  obtain ⟨gap, middle, hgap, form, last, hform, heq⟩ := h
  cases heq
  obtain ⟨hne, hblank, -, rfl⟩ := run?_eq_some_iff.mp hgap
  exact ⟨gap, form, ⟨hne, hblank⟩, isForm_of_shortForm? hform, rfl,
    congrArg (gap ++ ·) (shortForm?_eq_some hform).2⟩

/-- Where the next character that is not blank starts no form, none follows. -/
theorem gapAndForm?_eq_none (h : ∀ c, (visible text).head? = some c → opensForm c = false) :
    gapAndForm? text = none := by
  refine Option.eq_none_iff_forall_ne_some.mpr ?_
  rintro ⟨taken, rest⟩ hsome
  obtain ⟨gap, form, hgap, hform, -, rfl⟩ := exists_gap_of_gapAndForm? hsome
  obtain ⟨c, more, rfl⟩ := List.exists_cons_of_ne_nil hform.isWord.1
  have hc := hform.isWord.2 c List.mem_cons_self
  have hclosed : opensForm c = false := by
    apply h c
    rw [visible_append, visible_of_isBlank hgap.2, List.nil_append, List.cons_append, visible,
      List.filter_cons_of_pos (by simp [hc])]
    rfl
  rw [hform.opens_head] at hclosed
  cases hclosed

/-- The fifth and sixth form of a candidate, as far as they are there. -/
def lastForms? (text : List Char) : Option (List Char × List Char) := do
  let (fifth, rest) ← shortForm? text
  match gapAndForm? rest with
  | some (sixth, rest) => return (fifth ++ sixth, rest)
  | none => return (fifth, rest)

theorem lastForms?_of_none {fifth : List Char} (hfifth : shortForm? text = some (fifth, rest))
    (hnone : gapAndForm? rest = none) : lastForms? text = some (fifth, rest) := by
  simp [lastForms?, hfifth, hnone]

/-- Of the one or two forms at its end, a candidate takes what stands before the first step. -/
theorem lastForms?_append (h : Separated back pieces) (hforms : ∀ piece ∈ pieces, IsForm piece)
    (hcount : pieces.length ≤ 2) (hend : ∀ c, after.head? = some c → c.isDigit = false)
    (hnext : pieces.length = 1 → gapAndForm? after = none) :
    lastForms? (back ++ after) = some (beforeStep back, fromStep back ++ after) := by
  cases h with
  | last =>
    have hform := hforms _ List.mem_cons_self
    refine lastForms?_of_none (shortForm?_append hform hend) ?_
    rcases hform.slash_not_mem_or with hslash | ⟨step, rfl⟩
    · rw [fromStep_of_not_mem hslash]
      exact hnext rfl
    · exact gapAndForm?_slash (step ++ after)
  | @cons word gap text pieces hword hgap h =>
    obtain ⟨hform, hforms⟩ := List.forall_mem_cons.mp hforms
    have hblank : ∀ c, (gap ++ (text ++ after)).head? = some c → c.isDigit = false :=
      fun _ hc => isDigit_of_isBlank (hgap.isBlank_head hc)
    have hfifth := shortForm?_append hform hblank
    rw [List.append_assoc, List.append_assoc]
    rcases hform.slash_not_mem_or with hslash | ⟨step, rfl⟩
    · -- the fifth form is whole, and the sixth follows
      have hlast : IsForm text := by
        cases h with
        | last => exact hforms _ List.mem_cons_self
        | cons _ _ h =>
          have hpos := List.length_pos_of_ne_nil h.pieces_ne_nil
          simp only [List.length_cons] at hcount
          omega
      have hgapSlash := slash_not_mem_gap hgap
      rw [fromStep_of_not_mem hslash, beforeStep_eq_self_iff.mpr hslash] at hfifth
      rw [lastForms?, hfifth, beforeStep_append hslash, beforeStep_append hgapSlash,
        fromStep_append hslash, fromStep_append hgapSlash]
      simp only [Option.bind_eq_bind, Option.bind_some, List.nil_append,
        gapAndForm?_append hlast hgap hend]
      rfl
    · -- the candidate ends with the star of the fifth form
      have hrest : fromStep ('*' :: '/' :: step ++ (gap ++ text)) ++ after =
          '/' :: step ++ (gap ++ (text ++ after)) := by simp [fromStep]
      rw [hrest]
      exact lastForms?_of_none hfifth (gapAndForm?_slash _)

/-! ## The candidate of a plain expression -/

theorem atHead?_of_lastForms? {forms last : List Char}
    (hforms : formsAndGaps? 4 text = some (forms, back))
    (hlast : lastForms? back = some (last, rest)) :
    atHead? text = some (forms ++ last, rest) := by
  simp only [lastForms?, Option.bind_eq_bind, Option.bind_eq_some_iff, Prod.exists] at hlast
  obtain ⟨fifth, middle, hfifth, hlast⟩ := hlast
  simp only [atHead?, hforms, hfifth, Option.bind_eq_bind, Option.bind_some]
  cases hsixth : gapAndForm? middle with
  | none =>
    rw [hsixth] at hlast
    cases hlast
    rfl
  | some found =>
    rw [hsixth] at hlast
    cases hlast
    exact congrArg some (Prod.ext (List.append_assoc _ _ _) rfl)

/-- A plain expression is the candidate at its place, up to the first step from its fifth form
on, where no digit follows it and no sixth form follows five. -/
theorem exists_atHead (h : Separated text pieces) (hforms : ∀ piece ∈ pieces, IsForm piece)
    (hcount : pieces.length = 5 ∨ pieces.length = 6)
    (hend : ∀ c, after.head? = some c → c.isDigit = false)
    (hnext : pieces.length = 5 → gapAndForm? after = none) :
    ∃ front back, text = front ++ back ∧ Separated back (pieces.drop 4) ∧
      (∀ rest, words (front ++ rest) = pieces.take 4 ++ words rest) ∧
      atHead? (text ++ after) = some (front ++ beforeStep back, fromStep back ++ after) := by
  have hfour : 4 < pieces.length := by omega
  obtain ⟨front, back, rfl, hback, hwords, hreads⟩ := formsAndGaps?_append h hforms hfour
  have hlength : (pieces.drop 4).length ≤ 2 := by
    rw [List.length_drop]
    omega
  have hone : (pieces.drop 4).length = 1 → gapAndForm? after = none := by
    intro hlength
    rw [List.length_drop] at hlength
    exact hnext (by omega)
  have hlast := lastForms?_append hback
    (fun piece hpiece => hforms piece (List.mem_of_mem_drop hpiece)) hlength hend hone
  exact ⟨front, back, rfl, hback, hwords, atHead?_of_lastForms? (hreads after) hlast⟩

/-- A plain expression makes one candidate, which ends before the first step from its fifth
form on. -/
theorem exists_candidate (h : Separated text pieces) (hforms : ∀ piece ∈ pieces, IsForm piece)
    (hcount : pieces.length = 5 ∨ pieces.length = 6)
    (hbefore : ∀ c ∈ before, opensForm c = false) (hafter : ∀ c ∈ after, opensForm c = false) :
    ∃ front back, text = front ++ back ∧ Separated back (pieces.drop 4) ∧
      (∀ rest, words (front ++ rest) = pieces.take 4 ++ words rest) ∧
      candidates (before ++ text ++ after) = [front ++ beforeStep back] := by
  obtain ⟨front, back, rfl, hback, hwords, hhead⟩ := exists_atHead h hforms hcount
    (isDigit_head_of_forall hafter) fun _ => gapAndForm?_eq_none fun c hc =>
      hafter c (List.mem_of_mem_filter (List.mem_of_head? hc))
  -- what is left behind the candidate has too few words for another one
  have hrest : candidates (fromStep back ++ after) = [] := by
    have hsuffix : fromStep back ++ after <:+ back ++ after := by
      refine ⟨beforeStep back, ?_⟩
      rw [← List.append_assoc, beforeStep_append_fromStep]
    have hfew := (formWords_le_of_suffix hsuffix).trans (formWords_append_le hback hafter)
    rw [List.length_drop] at hfew
    exact candidates_eq_nil (by omega)
  refine ⟨front, back, rfl, hback, hwords, ?_⟩
  rw [List.append_assoc, candidates_append hbefore, candidates_of_atHead? hhead, hrest]

/-! ## Its validity -/

/-- The words before the first step are the same, where only the last one has a step. -/
theorem words_beforeStep (h : Separated text pieces) (hforms : ∀ piece ∈ pieces, IsForm piece)
    (hlone : ∀ piece ∈ pieces.dropLast, '/' ∉ piece) :
    List.Forall₂ (fun piece kept => kept = piece ∨ kept = ['*']) pieces
      (words (beforeStep text)) := by
  induction h with
  | @last word hword =>
    rcases (hforms word List.mem_cons_self).slash_not_mem_or with hslash | ⟨step, rfl⟩
    · rw [beforeStep_eq_self_iff.mpr hslash, words_of_isWord hword]
      exact .cons (.inl rfl) .nil
    · have hstar : words ['*'] = [['*']] := by decide
      exact hstar ▸ .cons (.inr rfl) .nil
  | @cons word gap text pieces hword hgap h ih =>
    rw [List.dropLast_cons_of_ne_nil h.pieces_ne_nil] at hlone
    obtain ⟨hslash, hlone⟩ := List.forall_mem_cons.mp hlone
    rw [beforeStep_append hslash, beforeStep_append (slash_not_mem_gap hgap),
      words_append_gap hword hgap]
    exact .cons (.inl rfl) (ih (List.forall_mem_cons.mp hforms).2 hlone)

theorem parses_star (field : Field) : Pattern.Parses field ['*'] := by
  have hallows : ∀ c ∈ ['*'], field.allows c = true :=
    List.forall_mem_singleton.mpr (Field.allows_iff.mpr (.inr (.inl (by decide))))
  exact (MarkTable.exists_parse_iff hallows).mpr (.inl rfl)

/-- An expression with stars in the place of words is valid. -/
theorem isValid_of_stars {expression other : String} (hvalid : Schedule.isValid expression = true)
    (h : List.Forall₂ (fun word kept => kept = word ∨ kept = ['*']) (Pattern.wordsOf expression)
      (Pattern.wordsOf other)) :
    Schedule.isValid other = true := by
  refine toBool_eq_true_iff.mpr
    (Schedule.accepts_of_wordByWord (Pattern.wordByWord_of_forall₂ h) ?_
      (toBool_eq_true_iff.mp hvalid))
  rintro field word kept (rfl | rfl) hparses
  · exact hparses
  · exact parses_star field

/-- Where no form but the last one is cut, a valid expression is left. -/
theorem isValid_beforeStep {expression : String} {front : List Char}
    (h : Separated expression.toList pieces) (hforms : ∀ piece ∈ pieces, IsForm piece)
    (hvalid : Schedule.isValid expression = true) (hback : Separated back (pieces.drop 4))
    (hwords : ∀ rest, words (front ++ rest) = pieces.take 4 ++ words rest)
    (hlone : ∀ piece ∈ (pieces.drop 4).dropLast, '/' ∉ piece) :
    Schedule.isValid (String.ofList (front ++ beforeStep back)) = true := by
  refine isValid_of_stars hvalid ?_
  rw [Pattern.wordsOf, Pattern.wordsOf, words_trim, words_trim, String.toList_ofList, hwords,
    h.words_eq]
  have hlast := words_beforeStep hback
    (fun piece hpiece => hforms piece (List.mem_of_mem_drop hpiece)) hlone
  have hsame : List.Forall₂ (fun piece kept : List Char => kept = piece ∨ kept = ['*'])
      (pieces.take 4) (pieces.take 4) := List.forall₂_same.mpr fun _ _ => .inl rfl
  have happend : List.Forall₂ (fun piece kept => kept = piece ∨ kept = ['*'])
      (pieces.take 4 ++ pieces.drop 4) (pieces.take 4 ++ words (beforeStep back)) :=
    List.rel_append hsame hlast
  rwa [List.take_append_drop] at happend

end FreeText

open FreeText

/-- **Plain expressions in free text.**  Between texts without digits and stars, the only
candidate of a valid expression of plain forms is the expression cut right before the first
step from its fifth form on.  It is found where it is valid, as it always is when no form but
the last one is cut.  So the expression is found whole exactly when none of its last forms has
a step. -/
theorem extractExpression?_plain {expression before after : String} {pieces : List (List Char)}
    (hplain : Separated expression.toList pieces) (hforms : ∀ piece ∈ pieces, IsForm piece)
    (hcount : pieces.length = 5 ∨ pieces.length = 6)
    (hvalid : Schedule.isValid expression = true)
    (hbefore : ∀ c ∈ before.toList, opensForm c = false)
    (hafter : ∀ c ∈ after.toList, opensForm c = false) :
    ∃ front back, expression.toList = front ++ back ∧ words front = pieces.take 4 ∧
      words back = pieces.drop 4 ∧ ∃ found, found = String.ofList (front ++ beforeStep back) ∧
        extractExpression? (before ++ expression ++ after) =
          (if Schedule.isValid found = true then some found else none) ∧
        ((∀ piece ∈ (pieces.drop 4).dropLast, '/' ∉ piece) → Schedule.isValid found = true) ∧
        (extractExpression? (before ++ expression ++ after) = some expression ↔
          ∀ piece ∈ pieces.drop 4, '/' ∉ piece) := by
  obtain ⟨front, back, htext, hback, hwords, hcandidates⟩ :=
    exists_candidate hplain hforms hcount hbefore hafter
  have hfront : words front = pieces.take 4 := by simpa using hwords []
  have hextract : extractExpression? (before ++ expression ++ after) =
      if Schedule.isValid (String.ofList (front ++ beforeStep back)) = true then
        some (String.ofList (front ++ beforeStep back)) else none := by
    rw [extractExpression?, String.toList_append, String.toList_append, hcandidates,
      List.map_singleton, List.find?_singleton]
  have hself : String.ofList (front ++ beforeStep back) = expression ↔
      ∀ piece ∈ pieces.drop 4, '/' ∉ piece := by
    have hnone : '/' ∉ back ↔ ∀ piece ∈ pieces.drop 4, '/' ∉ piece := by
      rw [hback.mem_iff (by decide)]
      simp
    rw [← hnone, ← beforeStep_eq_self_iff, ← String.toList_inj, String.toList_ofList, htext,
      List.append_cancel_left_eq]
  refine ⟨front, back, htext, hfront, hback.words_eq, _, rfl, hextract, ?_, ?_⟩
  · exact isValid_beforeStep hplain hforms hvalid hback hwords
  · rw [hextract, ← hself]
    constructor
    · intro hfound
      split at hfound
      · exact Option.some.inj hfound
      · cases hfound
    · intro heq
      rw [heq, if_pos hvalid]

/-- Steps in the first four forms are kept, in the middle of a sentence. -/
theorem extractExpression?_plain_in_sentence :
    Separated "*/5 0 1\t*/2 *".toList
        ["*/5".toList, ['0'], ['1'], "*/2".toList, ['*']] ∧
      Schedule.isValid "*/5 0 1\t*/2 *" = true ∧
      extractExpression? ("Use `" ++ "*/5 0 1\t*/2 *" ++ "`, please.") =
        some "*/5 0 1\t*/2 *" := by
  have hplain : Separated "*/5 0 1\t*/2 *".toList
      ["*/5".toList, ['0'], ['1'], "*/2".toList, ['*']] :=
    separated_words (show trim "*/5 0 1\t*/2 *".toList ≠ [] by decide)
  have hvalid : Schedule.isValid "*/5 0 1\t*/2 *" = true := by decide +kernel
  have hbefore : ∀ c ∈ "Use `".toList, opensForm c = false :=
    forall_not_opensForm_iff.mp (by decide)
  have hafter : ∀ c ∈ "`, please.".toList, opensForm c = false :=
    forall_not_opensForm_iff.mp (by decide)
  obtain ⟨front, back, -, -, -, found, -, -, -, hwhole⟩ :=
    extractExpression?_plain hplain (by decide) (.inl rfl) hvalid hbefore hafter
  exact ⟨hplain, hvalid, hwhole.mpr (by decide)⟩

/-- A step in the fifth form is lost, and a valid expression is left. -/
theorem extractExpression?_loses_step :
    Separated "0 0 1 1 */2".toList [['0'], ['0'], ['1'], ['1'], "*/2".toList] ∧
      (∀ piece ∈ [['0'], ['0'], ['1'], ['1'], "*/2".toList], IsForm piece) ∧
      Schedule.isValid "0 0 1 1 */2" = true ∧
      extractExpression? "0 0 1 1 */2" = some "0 0 1 1 *" := by
  refine ⟨?_, by decide, by decide +kernel, ?_⟩
  · exact separated_words (show trim "0 0 1 1 */2".toList ≠ [] by decide)
  · have hhead : atHead? "0 0 1 1 */2".toList = some ("0 0 1 1 *".toList, ['/', '2']) := by decide
    rw [extractExpression?, candidates_of_atHead? hhead, List.map_cons,
      List.find?_cons_of_pos (by decide)]
    rfl

end CronSchedule
