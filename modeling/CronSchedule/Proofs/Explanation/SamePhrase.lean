import CronSchedule.Proofs.Explanation.Readings

/-! # Equal phrases, equal tables

The table of an accepted token follows from what its phrase shows.  A token for the whole
field or for a span takes the values that its step reaches from the first on
(`setAll_of_isWholeStep`, `setAll_of_isSpanStep`), and a list takes what its elements are read
as, one after the other (`table_eq_of_list`).  So two tokens with the same phrase have the
same table (`table_eq_of_phrase_eq`), as long as their ranges of weekdays open plainly.
-/
namespace CronSchedule

open Text

/-- The values from the first of an element on, so many apart. -/
def Element.walk (field : Field) (n : Nat) : Element → List Nat
  | single first _ => progression first field.max n
  | range first last _ => progression first last n
  | element => element.values field

namespace Language

variable {field : Field} {text span span' token token' : List Char} {n n' : Nat}
  {element : Element} {table table' : MarkTable}

/-! ## Tables -/

/-- A numeral that is legible is read as the number it stands for. -/
theorem digits?_of_numeralUpTo? {count : List Char} (hplus : '+' ∉ count)
    (h : numeralUpTo? byteLimit count = some n) :
    digits? (field.renumber (upper count)) = some n := by
  have hdigits := ((numeralUpTo?_eq_some_iff hplus).mp h).1
  have hall := (digits?_eq_some hdigits).2
  rwa [upper_digits hall, Field.renumber_digits hall]

/-- Whether a token is accepted with a table, and all of its ranges of weekdays open plainly. -/
structure ParsesPlainly (field : Field) (token : List Char) (table : MarkTable) : Prop where
  parse : MarkTable.parse field token = .ok table
  opens : ∀ element ∈ token.splitOn ',', field.OpensPlainly element

theorem parsesPlainly_of_opens (h : MarkTable.parse field token = .ok table) (hcomma : ',' ∉ token)
    (hopens : field.OpensPlainly token) : ParsesPlainly field token table where
  parse := h
  opens := by rwa [List.splitOn_eq_singleton hcomma, List.forall_mem_singleton]

theorem not_reads_star : ¬ field.Reads ['*'] element := by
  have hstar : field.resolve (upper ['*']) = ['*'] := by
    cases field <;> decide
  intro h
  rw [Field.Reads, hstar] at h
  exact MarkTable.not_denotes_star h

/-- A lone star or question mark is a star where it is accepted. -/
theorem normalize_of_isLone (h : MarkTable.parse field token = .ok table) (hlone : IsLone token) :
    field.normalize token = ['*'] := by
  rcases hlone with rfl | rfl
  · cases field <;> decide
  · have hquestion : field.normalize ['?'] = ['*'] ∨
        '?' ∈ field.normalize ['?'] ∧ field.allows '?' = false := by
      cases field <;> decide
    refine hquestion.resolve_right fun hrefused => ?_
    have hallows := (MarkTable.parse_eq_ok_iff.mp h).1 '?' hrefused.1
    rw [hrefused.2] at hallows
    cases hallows

/-- A token for the whole field takes the values that its step reaches. -/
theorem setAll_of_isWholeStep (h : MarkTable.parse field token = .ok table)
    (hwhole : IsWholeStep token n) :
    0 < n ∧ (MarkTable.empty field).setAll Mark.plain.bits (progression field.min field.max n) =
      .ok table := by
  rcases hwhole with ⟨hlone, rfl⟩ | ⟨count, rfl, hn⟩
  · have hdomain : MarkTable.domain field = progression field.min field.max 1 :=
      (progression_one (Nat.le_refl field.max)).symm
    have henter := (MarkTable.parse_eq_ok_iff.mp h).2
    rw [normalize_of_isLone h hlone, MarkTable.enterToken, if_pos rfl, MarkTable.field_empty,
      hdomain] at henter
    split at henter
    · rename_i result hresult
      cases henter
      exact ⟨Nat.one_pos, hresult⟩
    · cases henter
  · have hlone : ¬ IsLone ('*' :: '/' :: count) :=
      not_isLone_of_mem (List.mem_cons_of_mem _ List.mem_cons_self) (by decide)
    have hlegible := (MarkTable.entered_of_parse h hlone).1
    have hplus : '+' ∉ count := fun hmem =>
      hlegible.plus_not_mem (List.mem_cons_of_mem _ (List.mem_cons_of_mem _ hmem))
    have hdigits := ((numeralUpTo?_eq_some_iff hplus).mp hn).1
    have hcomma : ',' ∉ '*' :: '/' :: count := by
      simpa using not_mem_of_digits? hdigits (c := ',') (by decide)
    obtain ⟨element, hread, henter⟩ := MarkTable.exists_enter_of_parse h hlone hcomma
    obtain ⟨k, hk, hpos, hcases⟩ :=
      Field.Reads.step_inv (show field.Reads (['*'] ++ '/' :: count) element from hread) (by decide)
    obtain rfl : k = n := Option.some.inj (hk.1.symm.trans (digits?_of_numeralUpTo? hplus hn))
    rcases hcases with ⟨-, rfl⟩ | ⟨m, hm, -⟩ | ⟨m, last, hm, -⟩
    · exact ⟨hpos, MarkTable.setAll_of_enter henter Element.noConfusion⟩
    · exact absurd hm not_reads_star
    · exact absurd hm not_reads_star

theorem IsSpanStep.not_isLone (h : IsSpanStep token span n) : ¬ IsLone token := by
  rcases h.form with ⟨rfl, hdash, -⟩ | ⟨count, rfl, -⟩
  · exact not_isLone_of_mem hdash (by decide)
  · exact not_isLone_of_mem (List.mem_append_right _ List.mem_cons_self) (by decide)

/-- A token for a span takes the values from its first on that its step reaches. -/
theorem setAll_of_isSpanStep (h : ParsesPlainly field token table)
    (hspan : IsSpanStep token span n) :
    0 < n ∧ ∃ base, field.ReadsPlainly span base ∧
      (MarkTable.empty field).setAll base.mark.bits (base.walk field n) = .ok table := by
  have hopens := h.opens
  rw [List.splitOn_eq_singleton hspan.no_comma, List.forall_mem_singleton] at hopens
  have hlegible := (MarkTable.entered_of_parse h.parse hspan.not_isLone).1
  obtain ⟨element, hread, henter⟩ :=
    MarkTable.exists_enter_of_parse h.parse hspan.not_isLone hspan.no_comma
  have hplain : field.ReadsPlainly token element := ⟨hlegible, hopens, hread⟩
  rcases hspan.form with ⟨rfl, hdash, rfl⟩ | ⟨count, rfl, hn⟩
  · refine ⟨Nat.one_pos, element, hplain, ?_⟩
    obtain ⟨first, last, rfl, hfirst⟩ := List.eq_append_cons_of_mem hdash
    obtain ⟨m, n, mark, -, -, -, rfl⟩ := hread.range_inv hfirst hspan.no_slash
    rw [Element.walk, progression_one (Denotes.range_le_max hread)]
    exact MarkTable.setAll_of_enter henter nofun
  · have hsides := Field.legible_append_cons field.separates_slash (by decide) hlegible
    obtain ⟨k, hk, hpos, hcases⟩ := hplain.step_inv hspan.no_slash hspan.not_star
    obtain rfl : k = n := Option.some.inj
      (hk.1.symm.trans (digits?_of_numeralUpTo? hsides.2.plus_not_mem hn))
    refine ⟨hpos, ?_⟩
    rcases hcases with ⟨m, hm, rfl⟩ | ⟨m, last, hm, rfl⟩
    · exact ⟨_, hm, MarkTable.setAll_of_enter henter nofun⟩
    · exact ⟨_, hm, MarkTable.setAll_of_enter henter nofun⟩

/-- Spans that are shown alike, with steps that are, have the same table. -/
theorem table_eq_of_span (h : ParsesPlainly field token table)
    (h' : ParsesPlainly field token' table') (hspan : IsSpanStep token span n)
    (hspan' : IsSpanStep token' span' n')
    (heq : shownSpan field " to ".toList span ++ stepRest field n =
      shownSpan field " to ".toList span' ++ stepRest field n') : table = table' := by
  obtain ⟨hpos, base, hread, hset⟩ := setAll_of_isSpanStep h hspan
  obtain ⟨hpos', base', hread', hset'⟩ := setAll_of_isSpanStep h' hspan'
  have hblank : ∀ {text : List Char}, field.Legible text → Lacks [' '] text := fun hlegible =>
    lacks_singleton (by decide) hlegible.blank_not_mem
  have hcomma : ∀ {token span : List Char} {n : Nat},
      IsSpanStep token span n → Lacks [','] span := by
    intro token span n hspan
    refine lacks_singleton (by decide) fun hmem => hspan.no_comma ?_
    rcases hspan.form with ⟨rfl, -⟩ | ⟨count, rfl, -⟩
    · exact hmem
    · exact List.mem_append_left _ hmem
  have hword : " to ".toList = ' ' :: "to ".toList := by decide
  rw [hword] at heq
  obtain ⟨halike, hsteps⟩ := spanAlike_of_shownSpan hread.legible hread'.legible
    (.inr ⟨hblank hread.legible, hblank hread'.legible⟩) (by decide) (hcomma hspan)
    (hcomma hspan') (head?_stepRest n) (head?_stepRest n') heq
  obtain rfl := stepRest_inj hpos hpos' hsteps
  obtain rfl := eq_of_spanAlike halike hspan.no_slash hspan'.no_slash hread hread'
  exact Except.ok.inj (hset.symm.trans hset')

theorem blank_mem_intercalate {f : List Char → List Char} (h : ',' ∈ token) :
    ' ' ∈ [',', ' '].intercalate ((token.splitOn ',').map f) := by
  obtain ⟨left, right, rfl, hleft⟩ := List.eq_append_cons_of_mem h
  obtain ⟨piece, pieces, hpieces⟩ := List.exists_cons_of_ne_nil (List.splitOn_ne_nil ',' right)
  rw [splitOn_cut hleft, hpieces, List.map_cons, List.map_cons, List.intercalate_cons_cons]
  simp

/-- Lists whose elements are shown alike have the same table. -/
theorem table_eq_of_list (h : ParsesPlainly field token table)
    (h' : ParsesPlainly field token' table') (hcomma : ',' ∈ token) (hcomma' : ',' ∈ token')
    (heq : [',', ' '].intercalate
        ((token.splitOn ',').map fun element => (english.listElement field element).toList) =
      [',', ' '].intercalate
        ((token'.splitOn ',').map fun element => (english.listElement field element).toList)) :
    table = table' := by
  have hshown : ∀ {text : List Char}, ∀ piece ∈ (text.splitOn ',').map fun element =>
      (english.listElement field element).toList, ',' ∉ piece := by
    intro text piece hpiece
    obtain ⟨element, helement, rfl⟩ := List.mem_map.mp hpiece
    exact comma_not_mem_listElement (not_mem_of_mem_splitOn helement)
  have hne : ∀ {text : List Char}, ((text.splitOn ',').map fun element =>
      (english.listElement field element).toList) ≠ [] := by
    intro text
    simp [List.splitOn_ne_nil]
  obtain ⟨hlegible, hreads, henter⟩ :=
    MarkTable.entered_of_parse h.parse (not_isLone_of_mem hcomma (by decide))
  obtain ⟨hlegible', hreads', henter'⟩ :=
    MarkTable.entered_of_parse h'.parse (not_isLone_of_mem hcomma' (by decide))
  have hread : (MarkTable.textsOf field token).map (Element.read field) =
      (MarkTable.textsOf field token').map (Element.read field) := by
    rw [MarkTable.textsOf, MarkTable.textsOf, List.map_map, List.map_map]
    refine map_eq_map_of_imp (intercalate_inj hne hne hshown hshown heq)
      fun piece hpiece piece' hpiece' hsame => ?_
    obtain ⟨found, hfound⟩ := hreads piece hpiece
    obtain ⟨found', hfound'⟩ := hreads' piece' hpiece'
    have hlegible := Field.legible_of_mem_splitOn hlegible hpiece
    have hlegible' := Field.legible_of_mem_splitOn hlegible' hpiece'
    have halike := elementAlike_of_listElement hlegible hlegible' (String.toList_inj.mp hsame)
    obtain rfl := eq_of_elementAlike halike ⟨hlegible, h.opens piece hpiece, hfound⟩
      ⟨hlegible', h'.opens piece' hpiece', hfound'⟩
    exact (Element.read_of_denotes hfound).trans (Element.read_of_denotes hfound').symm
  have hsame : (MarkTable.empty field).enterTexts (MarkTable.textsOf field token) =
      (MarkTable.empty field).enterTexts (MarkTable.textsOf field token') :=
    MarkTable.enterTexts_congr hread
  rw [hsame, henter'] at henter
  exact (Prod.mk.inj henter).1.symm

/-- A lone value that stands for a number is entered as that number. -/
theorem enter_of_numberOf? (h : MarkTable.parse field token = .ok table) (hlone : ¬ IsLone token)
    (hn : numberOf? field token = some n) :
    (MarkTable.empty field).enter (.single n .plain) = .ok table := by
  have hlegible := (MarkTable.entered_of_parse h hlone).1
  have hcomma := not_mem_of_numberOf? hlegible hn field.separates_comma (by decide) (by decide)
  have hdash := not_mem_of_numberOf? hlegible hn field.separates_dash (by decide) (by decide)
  obtain ⟨element, hread, henter⟩ := MarkTable.exists_enter_of_parse h hlone hcomma
  rwa [hread.eq_single hdash (digits?_of_numberOf? hlegible hn)] at henter

/-- Values that are shown alike have the same table. -/
theorem table_eq_of_alike (h : MarkTable.parse field token = .ok table)
    (h' : MarkTable.parse field token' = .ok table') (hlone : ¬ IsLone token)
    (hlone' : ¬ IsLone token') (halike : Alike field token token') : table = table' := by
  rcases halike with rfl | ⟨n, hn, hn'⟩
  · exact Except.ok.inj (h.symm.trans h')
  · exact Except.ok.inj
      ((enter_of_numberOf? h hlone hn).symm.trans (enter_of_numberOf? h' hlone' hn'))

/-- **Equal phrases mean equal tables.**  Two accepted tokens of a field that are explained by
the same English phrase have the same table, as long as their ranges of weekdays open
plainly. -/
theorem table_eq_of_phrase_eq {token token' : String}
    (h : MarkTable.parse field token.toList = .ok table)
    (h' : MarkTable.parse field token'.toList = .ok table')
    (hopens : ∀ element ∈ token.toList.splitOn ',', field.OpensPlainly element)
    (hopens' : ∀ element ∈ token'.toList.splitOn ',', field.OpensPlainly element)
    (hphrase : english.explainToken field token = english.explainToken field token') :
    table = table' := by
  obtain ⟨lead, rest, hshown, heq⟩ := exists_shown field token.toList
  obtain ⟨lead', rest', hshown', heq'⟩ := exists_shown field token'.toList
  obtain ⟨hlead, hrest⟩ := Lead.word_append_inj
    (heq.symm.trans ((congrArg String.toList hphrase).trans heq'))
  -- a list is told apart from a value by the blank between its elements
  have hblank : ∀ {text : List Char} {result : MarkTable},
      MarkTable.parse field text = .ok result → ¬ IsLone text → ' ' ∉ shown field text :=
    fun hparse hlone =>
      not_mem_shown (by decide) (MarkTable.entered_of_parse hparse hlone).1.blank_not_mem
  cases hshown with
  | whole hwhole =>
    cases hshown' with
    | whole hwhole' =>
      obtain rfl := wholeRest_inj hrest
      exact Except.ok.inj
        ((setAll_of_isWholeStep h hwhole).2.symm.trans (setAll_of_isWholeStep h' hwhole').2)
    | span | list | value => cases hlead
  | span hspan =>
    cases hshown' with
    | span hspan' => exact table_eq_of_span ⟨h, hopens⟩ ⟨h', hopens'⟩ hspan hspan' hrest
    | whole | list | value => cases hlead
  | list hcomma =>
    cases hshown' with
    | list hcomma' => exact table_eq_of_list ⟨h, hopens⟩ ⟨h', hopens'⟩ hcomma hcomma' hrest
    | value hlone' => exact absurd (hrest ▸ blank_mem_intercalate hcomma) (hblank h' hlone')
    | whole | span => cases hlead
  | value hlone =>
    cases hshown' with
    | value hlone' =>
      have hlegible := (MarkTable.entered_of_parse h hlone).1
      have hlegible' := (MarkTable.entered_of_parse h' hlone').1
      exact table_eq_of_alike h h' hlone hlone' (alike_of_shown hlegible hlegible' hrest)
    | list hcomma' => exact absurd (hrest ▸ blank_mem_intercalate hcomma') (hblank h hlone)
    | whole | span => cases hlead

/-- Two lists of ranges, each with one that starts on Sunday and one that ends on it. -/
theorem table_eq_of_phrase_eq_weekdays :
    english.explainToken .dayOfWeek "sat-SUN,0-Mon/2" = "At Saturday-Sunday, Sunday-Monday/2" ∧
      english.explainToken .dayOfWeek "6-sun,SUN-1/2" = "At Saturday-Sunday, Sunday-Monday/2" ∧
      ∃ table, MarkTable.parse .dayOfWeek "sat-SUN,0-Mon/2".toList = .ok table ∧
        MarkTable.parse .dayOfWeek "6-sun,SUN-1/2".toList = .ok table := by
  have hphrase : english.explainToken .dayOfWeek "sat-SUN,0-Mon/2" =
      "At Saturday-Sunday, Sunday-Monday/2" := by decide
  have hphrase' : english.explainToken .dayOfWeek "6-sun,SUN-1/2" =
      "At Saturday-Sunday, Sunday-Monday/2" := by decide
  obtain ⟨table, h⟩ := toBool_eq_true_iff.mp
    (show (MarkTable.parse .dayOfWeek "sat-SUN,0-Mon/2".toList).toBool = true by decide +kernel)
  obtain ⟨table', h'⟩ := toBool_eq_true_iff.mp
    (show (MarkTable.parse .dayOfWeek "6-sun,SUN-1/2".toList).toBool = true by decide +kernel)
  obtain rfl := table_eq_of_phrase_eq h h' (by decide) (by decide) (hphrase.trans hphrase'.symm)
  exact ⟨hphrase, hphrase', table, h, h'⟩

/-- Two names of Sunday in a row start no range plainly: behind the same phrase one table has
all weekdays and the other Sunday alone. -/
theorem same_phrase_of_names_in_a_row :
    english.explainToken .dayOfWeek "SUNSUN-SUN" = "From SUNSUN to Sunday" ∧
      english.explainToken .dayOfWeek "SUNSUN-0" = "From SUNSUN to Sunday" ∧
      (MarkTable.parse .dayOfWeek "SUNSUN-SUN".toList).map (fun table =>
        table.foldSunday.map (·.marked.map Prod.fst)) = .ok (.ok [0, 1, 2, 3, 4, 5, 6]) ∧
      (MarkTable.parse .dayOfWeek "SUNSUN-0".toList).map (fun table =>
        table.foldSunday.map (·.marked.map Prod.fst)) = .ok (.ok [0]) ∧
      ¬ Field.dayOfWeek.OpensPlainly "SUNSUN-SUN".toList := by
  decide

end Language
end CronSchedule
