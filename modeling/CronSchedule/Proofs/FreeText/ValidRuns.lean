import CronSchedule.Proofs.FreeText.PlainExpressions

/-! # Valid runs in free text

A run is five or six forms with gaps between them (`IsRun`).  Every candidate is one
(`isRun_of_atHead?`), so what is found in a text is a valid run of it.

The other way round, a valid run can be overlooked: candidates do not overlap, and one that is
no valid expression is not searched again from within.  A candidate does not reach over blanks
that follow a character which ends no form (`Closed`), so it never takes anything of a run
behind them (`exists_candidates_append`).  Where no sixth form follows a run of five, and no
step in the fifth of six forms makes a difference, the run is a candidate itself or is cut to
a valid one.  Then an expression is found (`extractExpression?_finds_valid_runs`).
-/
namespace CronSchedule

open Text

namespace FreeText

/-- Whether a text is five or six forms with gaps between them. -/
structure IsRun (text : List Char) (pieces : List (List Char)) : Prop where
  separated : Separated text pieces
  forms : ∀ piece ∈ pieces, IsForm piece
  count : pieces.length = 5 ∨ pieces.length = 6

variable {text taken rest before after behind form : List Char} {pieces : List (List Char)}
  {count : Nat}

/-! ## Candidates are runs -/

/-- Forms and gaps in front of forms are forms. -/
theorem separated_of_formsAndGaps? (h : formsAndGaps? count text = some (taken, rest))
    (hseparated : Separated behind pieces) (hforms : ∀ piece ∈ pieces, IsForm piece) :
    ∃ front, front.length = count ∧ Separated (taken ++ behind) (front ++ pieces) ∧
      ∀ piece ∈ front ++ pieces, IsForm piece := by
  induction count generalizing text taken with
  | zero =>
    cases h
    exact ⟨[], rfl, hseparated, hforms⟩
  | succ count ih =>
    simp only [formsAndGaps?, Option.bind_eq_bind, Option.bind_eq_some_iff, Prod.exists] at h
    obtain ⟨first, middle, hfirst, more, last, hmore, heq⟩ := h
    cases heq
    obtain ⟨form, gap, hform, hgap, rfl, -⟩ := exists_form_of_formAndGap? hfirst
    obtain ⟨front, hlength, hrest, hall⟩ := ih hmore
    refine ⟨form :: front, congrArg Nat.succ hlength, ?_, List.forall_mem_cons.mpr ⟨hform, hall⟩⟩
    rw [List.append_assoc, List.append_assoc]
    exact .cons hform.isWord hgap hrest

theorem isRun_of_atHead? (h : atHead? text = some (taken, rest)) :
    ∃ pieces, IsRun taken pieces := by
  simp only [atHead?, Option.bind_eq_bind, Option.bind_eq_some_iff, Prod.exists] at h
  obtain ⟨forms, middle, hforms, fifth, last, hfifth, h⟩ := h
  have hform := isForm_of_shortForm? hfifth
  cases hsixth : gapAndForm? last with
  | none =>
    rw [hsixth] at h
    cases h
    obtain ⟨front, hlength, hseparated, hall⟩ := separated_of_formsAndGaps? hforms
      (.last hform.isWord) (List.forall_mem_singleton.mpr hform)
    exact ⟨_, hseparated, hall, .inl (by simp [hlength])⟩
  | some found =>
    obtain ⟨sixth, final⟩ := found
    rw [hsixth] at h
    cases h
    obtain ⟨gap, form, hgap, hlast, rfl, -⟩ := exists_gap_of_gapAndForm? hsixth
    obtain ⟨front, hlength, hseparated, hall⟩ := separated_of_formsAndGaps? hforms
      (.cons hform.isWord hgap (.last hlast.isWord))
      (List.forall_mem_cons.mpr ⟨hform, List.forall_mem_singleton.mpr hlast⟩)
    rw [List.append_assoc]
    exact ⟨_, hseparated, hall, .inr (by simp [hlength])⟩

/-- A candidate is found at the head of a part of the text. -/
theorem exists_atHead_of_mem (h : taken ∈ candidates text) :
    ∃ front behind rest, text = front ++ behind ∧ atHead? behind = some (taken, rest) := by
  induction hn : text.length using Nat.strongRecOn generalizing text with
  | ind n ih =>
    cases text with
    | nil =>
      rw [candidates_nil] at h
      cases h
    | cons c text =>
      cases hhead : atHead? (c :: text) with
      | none =>
        rw [candidates_cons hhead] at h
        obtain ⟨front, behind, rest, rfl, hfound⟩ := ih text.length (by simp [← hn]) h rfl
        exact ⟨c :: front, behind, rest, rfl, hfound⟩
      | some found =>
        obtain ⟨first, later⟩ := found
        rw [candidates_of_atHead? hhead] at h
        rcases List.mem_cons.mp h with rfl | h
        · exact ⟨[], c :: text, later, rfl, hhead⟩
        · have hshorter := length_lt_of_atHead? hhead
          obtain ⟨front, behind, rest, rfl, hfound⟩ := ih later.length (hn ▸ hshorter) h rfl
          refine ⟨first ++ front, behind, rest, ?_, hfound⟩
          rw [List.append_assoc, (atHead?_eq_some hhead).2]

/-! ## Where candidates end -/

/-- A text that ends with blanks, and before them with a character that ends no form. -/
structure Closed (text : List Char) : Prop where
  blank : ∀ c, text.getLast? = some c → isBlank c = true
  visible : ∀ c, (visible text).getLast? = some c → opensForm c = false

theorem Closed.of_append (h : Closed (before ++ text)) : Closed text where
  blank := by
    intro c hc
    apply h.blank c
    rw [List.getLast?_append, hc, Option.some_or]
  visible := by
    intro c hc
    apply h.visible c
    rw [visible_append, List.getLast?_append, hc, Option.some_or]

/-- A form ends with a digit or a star. -/
theorem IsForm.opens_getLast {c : Char} (h : IsForm form) (hc : form.getLast? = some c) :
    opensForm c = true := by
  cases h with
  | number h => exact opensForm_of_isDigit (h.2 c (List.mem_of_getLast? hc))
  | star =>
    cases hc
    rfl
  | @step digits h =>
    have hlast : ('*' :: '/' :: digits).getLast? = digits.getLast? :=
      List.getLast?_append_of_ne_nil ['*', '/'] h.1
    exact opensForm_of_isDigit (h.2 c (List.mem_of_getLast? (hlast ▸ hc)))

theorem opens_getLast_of_forms {c : Char} (hforms : ∀ piece ∈ pieces, IsForm piece)
    (hc : pieces.flatten.getLast? = some c) : opensForm c = true := by
  rcases pieces.eq_nil_or_concat' with rfl | ⟨front, last, rfl⟩
  · cases hc
  · have hlast := hforms last (List.mem_append_right _ List.mem_cons_self)
    rw [List.flatten_append, List.flatten_singleton,
      List.getLast?_append_of_ne_nil _ hlast.isWord.1] at hc
    exact hlast.opens_getLast hc

theorem isBlank_of_opensForm {c : Char} (h : opensForm c = true) : isBlank c = false := by
  rcases Bool.or_eq_true_iff.mp h with hdigit | hstar
  · exact isBlank_of_isDigit hdigit
  · rw [beq_iff_eq.mp hstar]
    rfl

/-- The words of a closed text that starts with a form are not all forms. -/
theorem Closed.not_forms {c : Char} (h : Closed (c :: text)) (hc : opensForm c = true) :
    ¬ ∀ word ∈ words (c :: text), IsForm word := by
  intro hforms
  have hmem : c ∈ Text.visible (c :: text) :=
    List.mem_filter.mpr ⟨List.mem_cons_self, by simp [isBlank_of_opensForm hc]⟩
  have hlast := List.getLast?_eq_some_getLast (List.ne_nil_of_mem hmem)
  have hopens := opens_getLast_of_forms hforms ((congrArg _ (flatten_words _)).trans hlast)
  rw [h.visible _ hlast] at hopens
  cases hopens

/-- A candidate that starts in a closed text ends in it. -/
theorem Closed.exists_behind {c : Char} (h : Closed (c :: text))
    (hhead : atHead? (c :: (text ++ after)) = some (taken, rest)) :
    ∃ behind, c :: text = taken ++ behind ∧ rest = behind ++ after := by
  have happend : taken ++ rest = (c :: text) ++ after := (atHead?_eq_some hhead).2
  rcases List.append_eq_append_iff.mp happend with ⟨behind, htext, hrest⟩ | ⟨more, htaken, -⟩
  · exact ⟨behind, htext, hrest⟩
  · -- the words of the text would be forms of the candidate, as a blank follows them
    exfalso
    obtain ⟨pieces, hrun⟩ := isRun_of_atHead? hhead
    have hlast := List.getLast?_eq_some_getLast (List.cons_ne_nil c text)
    obtain ⟨front, hfront⟩ := List.getLast?_eq_some_iff.mp hlast
    have hblank := h.blank _ hlast
    apply h.not_forms (opensForm_of_atHead? hhead)
    intro word hword
    apply hrun.forms
    rw [← hrun.separated.words_eq, htaken, hfront, List.append_assoc, List.singleton_append,
      words_append_cons hblank]
    rw [hfront, words_append_cons hblank, words_nil, List.append_nil] at hword
    exact List.mem_append_left _ hword

/-- What follows a closed text has candidates of its own. -/
theorem exists_candidates_append (h : Closed before) (text : List Char) :
    ∃ earlier, candidates (before ++ text) = earlier ++ candidates text := by
  induction hn : before.length using Nat.strongRecOn generalizing before with
  | ind n ih =>
    cases before with
    | nil => exact ⟨[], rfl⟩
    | cons c before =>
      cases hhead : atHead? (c :: (before ++ text)) with
      | none =>
        have hclosed : Closed before := Closed.of_append (show Closed ([c] ++ before) from h)
        obtain ⟨earlier, hearlier⟩ := ih before.length (by simp [← hn]) hclosed rfl
        exact ⟨earlier, (candidates_cons hhead).trans hearlier⟩
      | some found =>
        obtain ⟨taken, rest⟩ := found
        obtain ⟨behind, hbefore, rfl⟩ := h.exists_behind hhead
        rw [hbefore] at h hn
        have hshorter : behind.length < n := by
          have hpos := List.length_pos_of_ne_nil (atHead?_eq_some hhead).1
          rw [List.length_append] at hn
          omega
        obtain ⟨earlier, hearlier⟩ := ih behind.length hshorter h.of_append rfl
        refine ⟨taken :: earlier, ?_⟩
        rw [List.cons_append, candidates_of_atHead? hhead, hearlier, List.cons_append]

/-! ## Valid runs -/

/-- Of two forms the first of which has a step, a star is left. -/
theorem words_beforeStep_of_step (h : Separated behind pieces)
    (hforms : ∀ piece ∈ pieces, IsForm piece) (hcount : pieces.length ≤ 2)
    (hstep : ∃ piece ∈ pieces.dropLast, '/' ∈ piece) : words (beforeStep behind) = [['*']] := by
  obtain ⟨piece, hpiece, hslash⟩ := hstep
  cases h with
  | last => cases hpiece
  | @cons word gap text pieces hword hgap h =>
    have hnone : pieces.dropLast = [] := by
      apply List.eq_nil_of_length_eq_zero
      rw [List.length_cons] at hcount
      rw [List.length_dropLast]
      omega
    rw [List.dropLast_cons_of_ne_nil h.pieces_ne_nil, hnone, List.mem_singleton] at hpiece
    subst hpiece
    obtain ⟨step, rfl⟩ :=
      (hforms piece List.mem_cons_self).slash_not_mem_or.resolve_left (not_not_intro hslash)
    show words ['*'] = [['*']]
    decide

/-- A valid run is cut to a valid expression, if the first four forms and a star make one where
the fifth of six forms has a step. -/
theorem IsRun.isValid_beforeStep {expression : String} {front : List Char}
    (h : IsRun expression.toList pieces) (hvalid : Schedule.isValid expression = true)
    (hback : Separated behind (pieces.drop 4))
    (hwords : ∀ rest, words (front ++ rest) = pieces.take 4 ++ words rest)
    (hcut : (∃ piece ∈ (pieces.drop 4).dropLast, '/' ∈ piece) → ∃ cut : String,
      Separated cut.toList (pieces.take 4 ++ [['*']]) ∧ Schedule.isValid cut = true) :
    Schedule.isValid (String.ofList (front ++ beforeStep behind)) = true := by
  by_cases hstep : ∃ piece ∈ (pieces.drop 4).dropLast, '/' ∈ piece
  · obtain ⟨cut, hseparated, hvalid⟩ := hcut hstep
    have hcount : (pieces.drop 4).length ≤ 2 := by
      have := h.count
      rw [List.length_drop]
      omega
    have hstar := words_beforeStep_of_step hback
      (fun piece hpiece => h.forms piece (List.mem_of_mem_drop hpiece)) hcount hstep
    apply isValid_of_stars hvalid
    rw [Pattern.wordsOf, Pattern.wordsOf, words_trim, words_trim, String.toList_ofList, hwords,
      hstar, hseparated.words_eq]
    exact List.forall₂_same.mpr fun _ _ => .inl rfl
  · apply FreeText.isValid_beforeStep h.separated h.forms hvalid hback hwords
    intro piece hpiece hslash
    exact hstep ⟨piece, hpiece, hslash⟩

end FreeText

open FreeText

/-- What is found in a text is a part of it and a valid run. -/
theorem isRun_of_extractExpression? {text found : String}
    (h : extractExpression? text = some found) :
    found.toList <:+: text.toList ∧ (∃ pieces, IsRun found.toList pieces) ∧
      Schedule.isValid found = true := by
  have hmem := List.mem_of_find?_eq_some h
  obtain ⟨taken, hcandidate, rfl⟩ := List.mem_map.mp hmem
  obtain ⟨front, behind, rest, htext, hhead⟩ := exists_atHead_of_mem hcandidate
  rw [String.toList_ofList]
  refine ⟨⟨front, rest, ?_⟩, isRun_of_atHead? hhead, List.find?_some h⟩
  rw [htext, List.append_assoc, (atHead?_eq_some hhead).2]

/-- **What is found in free text, and where.**  What is found in a text is a valid run of it.
And something is found in every text in which a valid run stands between blanks, unless the run
is next to others: the word in front of it ends with a digit or a star, or the word behind a
run of five starts with one.  A step in the fifth of six forms does no harm where the first four
forms and a star make a valid expression. -/
theorem extractExpression?_finds_valid_runs (text : String) :
    (∀ found, extractExpression? text = some found → found.toList <:+: text.toList ∧
      (∃ pieces, IsRun found.toList pieces) ∧ Schedule.isValid found = true) ∧
    ∀ before (expression : String) after pieces,
      text.toList = before ++ (expression.toList ++ after) →
      IsRun expression.toList pieces → Schedule.isValid expression = true →
      Closed before → (∀ c, after.head? = some c → isBlank c = true) →
      (pieces.length = 5 → ∀ c, (visible after).head? = some c → opensForm c = false) →
      ((∃ piece ∈ (pieces.drop 4).dropLast, '/' ∈ piece) → ∃ cut : String,
        Separated cut.toList (pieces.take 4 ++ [['*']]) ∧ Schedule.isValid cut = true) →
      (extractExpression? text).isSome = true := by
  constructor
  · intro found hfound
    exact isRun_of_extractExpression? hfound
  · intro before expression after pieces htext hrun hvalid hbefore hafter hnext hcut
    have hend : ∀ c, after.head? = some c → c.isDigit = false :=
      fun c hc => isDigit_of_isBlank (hafter c hc)
    obtain ⟨front, back, -, hback, hwords, hhead⟩ :=
      exists_atHead hrun.separated hrun.forms hrun.count hend
        fun hfive => gapAndForm?_eq_none (hnext hfive)
    obtain ⟨earlier, hearlier⟩ := exists_candidates_append hbefore (expression.toList ++ after)
    have hmem : front ++ beforeStep back ∈ candidates text.toList := by
      rw [htext, hearlier, candidates_of_atHead? hhead]
      exact List.mem_append_right _ List.mem_cons_self
    rw [extractExpression?, List.find?_isSome]
    exact ⟨_, List.mem_map_of_mem hmem, hrun.isValid_beforeStep hvalid hback hwords hcut⟩

/-- A run of no valid expression, a word, and a valid run. -/
theorem extractExpression?_finds_valid_runs_behind_word :
    Closed "99 9 9 9 9 9 then ".toList ∧
      IsRun "0 0 1 1 */2".toList [['0'], ['0'], ['1'], ['1'], "*/2".toList] ∧
      Schedule.isValid "0 0 1 1 */2" = true ∧
      (extractExpression? "99 9 9 9 9 9 then 0 0 1 1 */2 (new)").isSome = true := by
  have hat : ∀ {found : Option Char} {d : Char} {p : Char → Prop}, found = some d → p d →
      ∀ c, found = some c → p c := by
    rintro _ d p rfl hd c hc
    cases hc
    exact hd
  have hbefore : Closed "99 9 9 9 9 9 then ".toList :=
    ⟨hat (show _ = some ' ' by decide) rfl, hat (show _ = some 'n' by decide) rfl⟩
  have hrun : IsRun "0 0 1 1 */2".toList [['0'], ['0'], ['1'], ['1'], "*/2".toList] :=
    ⟨separated_words (show trim "0 0 1 1 */2".toList ≠ [] by decide), by decide, .inl rfl⟩
  have hvalid : Schedule.isValid "0 0 1 1 */2" = true := by decide +kernel
  have hafter : ∀ c, " (new)".toList.head? = some c → isBlank c = true :=
    hat (show _ = some ' ' by decide) rfl
  have hnext : ∀ c, (visible " (new)".toList).head? = some c → opensForm c = false :=
    hat (show _ = some '(' by decide) rfl
  refine ⟨hbefore, hrun, hvalid, ?_⟩
  refine (extractExpression?_finds_valid_runs _).2 "99 9 9 9 9 9 then ".toList "0 0 1 1 */2"
    " (new)".toList _ (by decide) hrun hvalid hbefore hafter (fun _ => hnext) ?_
  rintro ⟨piece, hpiece, -⟩
  cases hpiece

/-- Valid runs are overlooked where the fifth of six forms has a step, and where a number stands
in front of five forms or behind them. -/
theorem extractExpression?_overlooks_valid_runs :
    (IsRun "0 30 9 1 */3 *".toList [['0'], "30".toList, ['9'], ['1'], "*/3".toList, ['*']] ∧
      Schedule.isValid "0 30 9 1 */3 *" = true ∧ extractExpression? "0 30 9 1 */3 *" = none) ∧
    IsRun "0 9 * * 1".toList [['0'], ['9'], ['*'], ['*'], ['1']] ∧
      Schedule.isValid "0 9 * * 1" = true ∧
      "99 0 9 * * 1".toList = "99 ".toList ++ "0 9 * * 1".toList ∧
      extractExpression? "99 0 9 * * 1" = none ∧
      "0 9 * * 1 30".toList = "0 9 * * 1".toList ++ " 30".toList ∧
      extractExpression? "0 9 * * 1 30" = none := by
  -- the only candidate is no valid expression
  have hnone : ∀ {text : String} {taken rest : List Char},
      atHead? text.toList = some (taken, rest) → formWords rest < 5 →
        Schedule.isValid (String.ofList taken) = false → extractExpression? text = none := by
    intro text taken rest hhead hfew hinvalid
    rw [extractExpression?, candidates_of_atHead? hhead, candidates_eq_nil hfew, List.map_singleton,
      List.find?_singleton, hinvalid, if_neg Bool.false_ne_true]
  have hstep : atHead? "0 30 9 1 */3 *".toList = some ("0 30 9 1 *".toList, "/3 *".toList) := by
    decide
  have hbefore : atHead? "99 0 9 * * 1".toList = some ("99 0 9 * * 1".toList, []) := by decide
  have hbehind : atHead? "0 9 * * 1 30".toList = some ("0 9 * * 1 30".toList, []) := by decide
  refine ⟨⟨?_, by decide +kernel, hnone hstep (by decide) (by decide)⟩, ?_, by decide, by decide,
    hnone hbefore (by decide) (by decide), by decide, hnone hbehind (by decide) (by decide)⟩
  · exact ⟨separated_words (show trim "0 30 9 1 */3 *".toList ≠ [] by decide), by decide, .inr rfl⟩
  · exact ⟨separated_words (show trim "0 9 * * 1".toList ≠ [] by decide), by decide, .inl rfl⟩

end CronSchedule
