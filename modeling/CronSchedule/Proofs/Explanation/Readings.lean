import CronSchedule.Proofs.Explanation.Phrases
import CronSchedule.Proofs.Schedule.TokenMeaning

/-! # What alike texts are read as

The elements of an accepted token are read one by one, as what they denote once they are in
capitals and their names are replaced (`Field.Reads`, `MarkTable.entered_of_parse`).  Values
that are alike are read as the same number (`digits?_eq_of_alike`), and so spans and elements
that are alike are read as the same element (`eq_of_elementAlike`).

One thing about a range is not shown by its values.  A Sunday that ends it is 7, unless the
range starts with the name of Sunday or a lone 0; other texts that become 0 are told apart
from these.  A range starts plainly when this makes no difference (`Field.StartsPlainly`);
a whole name or a number without leading zeros always does (`startsPlainly_of_whole`).
-/
namespace CronSchedule

open Text

/-! ## Elements as they are written -/

/-- Whether a text is read as an element once it is in capitals and its names are replaced. -/
def Field.Reads (field : Field) (text : List Char) (element : Element) : Prop :=
  Denotes field (field.resolve (upper text)) element

namespace Field

variable {field : Field} {text span step first last : List Char} {element : Element}

/-- A text is read as one element at most. -/
theorem Reads.unique {other : Element} (h : field.Reads text element)
    (hother : field.Reads text other) : element = other :=
  Denotes.unique h hother

/-- A number is read as that value. -/
theorem Reads.eq_single {n : Nat} (h : field.Reads text element) (hdash : '-' ∉ text)
    (hn : digits? (field.renumber (upper text)) = some n) : element = .single n .plain := by
  rw [Reads, resolve_eq_renumber (not_mem_upper (by decide) hdash)] at h
  exact h.eq_single hn

/-- Two values with a dash between them are read as a range, the second one closing it. -/
theorem Reads.range_inv (h : field.Reads (first ++ '-' :: last) element) (hdash : '-' ∉ first)
    (hslash : '/' ∉ first ++ '-' :: last) :
    ∃ m n mark, digits? (field.renumber (upper first)) = some m ∧
      Denotes field (field.renumber (field.closing (upper first) (upper last))) (.single n mark) ∧
        m ≤ n ∧ element = .range m n mark := by
  have hdash' : '-' ∉ upper first := not_mem_upper (by decide) hdash
  have hslash' : '/' ∉ field.resolve (upper (first ++ '-' :: last)) := fun hmem =>
    not_mem_upper (by decide) hslash (mem_of_mem_resolve (by decide) hmem)
  rw [upper_append_cons (by decide), resolve_append_dash hdash'] at hslash'
  rw [Reads, upper_append_cons (by decide), resolve_append_dash hdash'] at h
  exact h.range_inv (not_mem_renumber (by decide) hdash') hslash'

/-- A step is read over the whole field, from a value on, or over a range. -/
theorem Reads.step_inv (h : field.Reads (span ++ '/' :: step) element) (hspan : '/' ∉ span) :
    ∃ n, IsNumber (field.renumber (upper step)) n ∧ 0 < n ∧
      (span = ['*'] ∧ element = .stepped .whole n ∨
        (∃ m, field.Reads span (.single m .plain) ∧ element = .stepped (.upFrom m) n) ∨
        ∃ m last, field.Reads span (.range m last .plain) ∧
          element = .stepped (.between m last) n) := by
  have hmem : '/' ∈ upper (span ++ '/' :: step) := by
    rw [upper_append_cons (by decide)]
    exact List.mem_append_right _ List.mem_cons_self
  obtain ⟨base, count, heq, hbase⟩ :=
    List.eq_append_cons_of_mem (mem_resolve_of_mem field.separates_slash hmem)
  rw [Reads, heq] at h
  obtain ⟨n, hn, hpos, hcases⟩ := h.step_inv hbase
  obtain ⟨left, right, htext, rfl, rfl⟩ := exists_cut_of_resolve field.separates_slash (by decide)
    (by decide) hbase (hn.not_mem (by decide)) heq
  have hleft : '/' ∉ left := fun hmem => hbase (mem_resolve_of_mem field.separates_slash hmem)
  rw [upper_append_cons (by decide)] at htext
  obtain ⟨rfl, rfl⟩ := append_cons_inj (not_mem_upper (by decide) hspan) hleft htext
  refine ⟨n, hn, hpos, hcases.imp_left fun hwhole => ⟨?_, hwhole.2⟩⟩
  exact eq_singleton_of_upper (by decide) (eq_star_of_resolve hwhole.1)

end Field

/-! ## Accepted tokens -/

namespace MarkTable

variable {field : Field} {token : List Char} {table : MarkTable}

/-- A token holds only what its field allows, once its names are replaced, when it is
accepted: the Sundays that end a range are all that is replaced in another way. -/
theorem legible_of_normalize (hlone : ¬ IsLone token)
    (h : ∀ c ∈ field.normalize token, field.allows c = true) : field.Legible token := by
  have hnormal : field.normalize token = field.replaceAliases (upper token) :=
    if_neg fun hboth => hlone (.inr hboth.2)
  have hfixed : field.allows ',' = true ∧ field.allows '0' = true := by
    cases field <;> decide
  intro c hc
  by_cases hcomma : c = ','
  · rw [hcomma]
    exact hfixed.1
  · obtain ⟨piece, hpiece, hin⟩ := exists_mem_splitOn hc hcomma
    rw [Field.splitOn_renumber, List.mem_map] at hpiece
    obtain ⟨element, helement, rfl⟩ := hpiece
    rcases Field.mem_resolve_of_mem_renumber hin with hmem | rfl
    · have hresolved : field.resolve element ∈ (field.normalize token).splitOn ',' := by
        rw [hnormal, Field.splitOn_replaceAliases]
        exact List.mem_map_of_mem helement
      exact h c (mem_of_mem_splitOn hresolved hmem)
    · exact hfixed.2

/-- The texts of the elements of a token, ready to be read. -/
def textsOf (field : Field) (token : List Char) : List (List Char) :=
  (token.splitOn ',').map fun element => field.resolve (upper element)

/-- The elements of an accepted token are read and entered one after the other, a lone star
or question mark apart. -/
theorem entered_of_parse (h : MarkTable.parse field token = .ok table)
    (hlone : ¬ IsLone token) :
    field.Legible token ∧ (∀ element ∈ token.splitOn ',', ∃ found, field.Reads element found) ∧
      (empty field).enterTexts (textsOf field token) = (table, none) := by
  obtain ⟨hallows, henter⟩ := parse_eq_ok_iff.mp h
  have hnormal : field.normalize token = field.replaceAliases (upper token) :=
    if_neg fun hboth => hlone (.inr hboth.2)
  have htexts : (field.normalize token).splitOn ',' = textsOf field token := by
    rw [hnormal, Field.splitOn_replaceAliases, splitOn_upper, List.map_map]
    rfl
  have hstar : field.normalize token ≠ ['*'] := by
    intro heq
    rw [heq] at htexts
    obtain ⟨element, helement, hresolve⟩ := List.map_eq_singleton_iff.mp htexts.symm
    have hjoin : [','].intercalate (token.splitOn ',') = token := List.intercalate_splitOn ','
    rw [helement, List.intercalate_singleton,
      eq_singleton_of_upper (by decide) (Field.eq_star_of_resolve hresolve)] at hjoin
    exact hlone (.inl hjoin.symm)
  refine ⟨legible_of_normalize hlone hallows, fun element helement => ?_, ?_⟩
  · refine (adds_of_parse h).1.resolve_left hstar _ ?_
    rw [htexts]
    exact List.mem_map_of_mem helement
  · rwa [enterToken, if_neg hstar, htexts] at henter

/-- A lone element is read and entered. -/
theorem exists_enter_of_parse (h : MarkTable.parse field token = .ok table)
    (hlone : ¬ IsLone token) (hcomma : ',' ∉ token) :
    ∃ element, field.Reads token element ∧ (empty field).enter element = .ok table := by
  obtain ⟨-, hreads, henter⟩ := entered_of_parse h hlone
  rw [textsOf, List.splitOn_eq_singleton hcomma, List.map_singleton, enterTexts] at henter
  rw [List.splitOn_eq_singleton hcomma, List.forall_mem_singleton] at hreads
  obtain ⟨element, hread⟩ := hreads
  refine ⟨element, hread, ?_⟩
  cases htext : (empty field).enterText (field.resolve (upper token)) with
  | error fault =>
    rw [htext] at henter
    cases henter
  | ok result =>
    rw [htext] at henter
    cases henter
    obtain ⟨found, hfound, hentered⟩ := bind_eq_ok_iff.mp htext
    rw [field_empty, Element.read_of_denotes hread, Except.ok.injEq] at hfound
    rwa [hfound]

end MarkTable

/-! ## Values -/

namespace Field

variable {field : Field} {text token element : List Char} {n : Nat}

theorem Legible.plus_not_mem (h : field.Legible text) : '+' ∉ text := by
  have hplus : field.Separates '+' ∧ field.allows '+' = false := by
    cases field <;> decide
  exact h.not_mem hplus.1 (by decide) hplus.2

theorem Legible.blank_not_mem (h : field.Legible text) : ' ' ∉ text := by
  have hblank : field.Separates ' ' ∧ field.allows ' ' = false := by
    cases field <;> decide
  exact h.not_mem hblank.1 (by decide) hblank.2

theorem legible_of_mem_splitOn (h : field.Legible token) (helement : element ∈ token.splitOn ',') :
    field.Legible element := by
  have hpiece : field.renumber (upper element) ∈ (field.renumber (upper token)).splitOn ',' := by
    rw [splitOn_renumber, splitOn_upper, List.map_map]
    exact List.mem_map_of_mem helement
  exact fun c hc => h c (mem_of_mem_splitOn hpiece hc)

end Field

namespace Language

variable {field : Field} {text text' : List Char} {n : Nat}

/-- A text that stands for a number is the digits of it or its name. -/
theorem digits_or_name_of_numberOf? (h : field.Legible text) (hn : numberOf? field text = some n) :
    digits? text = some n ∧ upper text = text ∨
      ∃ name ∈ field.aliases, upper text = name.letters ∧ name.value = n := by
  rcases Option.or_eq_some_iff.mp hn with hnumeral | ⟨-, hname⟩
  · have hdigits := ((numeralUpTo?_eq_some_iff h.plus_not_mem).mp hnumeral).1
    exact .inl ⟨hdigits, upper_digits (digits?_eq_some hdigits).2⟩
  · obtain ⟨name, hfind, hvalue⟩ := Option.map_eq_some_iff.mp hname
    have hletters := List.find?_some hfind
    rw [beq_iff_eq] at hletters
    exact .inr ⟨name, List.mem_of_find?_eq_some hfind, hletters.symm, hvalue⟩

/-- A text that stands for a number is read as that number. -/
theorem digits?_of_numberOf? (h : field.Legible text) (hn : numberOf? field text = some n) :
    digits? (field.renumber (upper text)) = some n := by
  rcases digits_or_name_of_numberOf? h hn with ⟨hdigits, hupper⟩ | ⟨name, hname, hletters, rfl⟩
  · rwa [hupper, Field.renumber_digits (digits?_eq_some hdigits).2]
  · rw [hletters, field.renumber_letters name hname, digits?_decimal]

/-- A text that stands for a number holds no character that a name or a number cannot. -/
theorem not_mem_of_numberOf? {c : Char} (h : field.Legible text)
    (hn : numberOf? field text = some n) (hseparates : field.Separates c)
    (hdigit : c.isDigit = false) (hupper : c.toUpper = c) : c ∉ text := by
  intro hmem
  have hin : c ∈ upper text := hupper ▸ List.mem_map_of_mem hmem
  exact not_mem_of_digits? (digits?_of_numberOf? h hn) hdigit
    (Field.mem_renumber_of_mem hseparates hin)

theorem digits?_eq_of_alike (h : field.Legible text) (h' : field.Legible text')
    (halike : Alike field text text') :
    digits? (field.renumber (upper text)) = digits? (field.renumber (upper text')) := by
  rcases halike with rfl | ⟨n, hn, hn'⟩
  · rfl
  · rw [digits?_of_numberOf? h hn, digits?_of_numberOf? h' hn']

end Language

/-! ## Ends of ranges -/

namespace Field

variable {field : Field} {first last left left' right : List Char} {m : Nat}

/-- Whether a range of weekdays that starts at 0 and ends with the name of Sunday starts with
that name or a lone 0. -/
def StartsPlainly (field : Field) (first last : List Char) : Prop :=
  field = .dayOfWeek → (['S', 'U', 'N'].isPrefixOf? last).isSome = true →
    digits? (field.renumber first) = some 0 → first = ['S', 'U', 'N'] ∨ first = ['0']

instance (field : Field) (first last : List Char) : Decidable (field.StartsPlainly first last) :=
  inferInstanceAs (Decidable (_ → _ → _ → _))

/-- Whether the range in an element, if there is one, starts plainly. -/
def OpensPlainly (field : Field) (element : List Char) : Prop :=
  ∀ sides ∈ cutAt? '-' (upper element), field.StartsPlainly sides.1 sides.2

instance (field : Field) (element : List Char) : Decidable (field.OpensPlainly element) :=
  inferInstanceAs
    (Decidable (∀ sides ∈ cutAt? '-' (upper element), field.StartsPlainly sides.1 sides.2))

/-- A whole name or a number without leading zeros starts a range plainly. -/
theorem startsPlainly_of_whole (h : (∃ n, first = decimal n) ∨
    ∃ name ∈ field.aliases, first = name.letters) : field.StartsPlainly first last := by
  rintro rfl - hzero
  rcases h with ⟨n, rfl⟩ | ⟨name, hname, rfl⟩
  · rw [renumber_digits (digits?_eq_some (digits?_decimal n)).2, digits?_decimal,
      Option.some.injEq] at hzero
    rw [hzero]
    exact .inr rfl
  · have hsunday : ∀ name ∈ dayOfWeek.aliases, name.value = 0 → name.letters = ['S', 'U', 'N'] := by
      decide
    rw [dayOfWeek.renumber_letters name hname, digits?_decimal, Option.some.injEq] at hzero
    exact .inl (hsunday name hname hzero)

/-- A range that starts plainly at 0 ends as it is written. -/
theorem closing_of_zero (h : field.StartsPlainly left right)
    (hzero : digits? (field.renumber left) = some 0) : field.closing left right = right := by
  rcases field.closing_eq left right with heq | ⟨hfield, hopen, rest, hright, -⟩
  · exact heq
  · exact absurd (h hfield (by rw [hright]; rfl) hzero) hopen

/-- Ranges that start at the same number are closed alike. -/
theorem closing_congr (h : field.StartsPlainly left right) (h' : field.StartsPlainly left' right)
    (hm : digits? (field.renumber left) = some m) (hm' : digits? (field.renumber left') = some m) :
    field.closing left right = field.closing left' right := by
  by_cases hzero : m = 0
  · subst hzero
    rw [closing_of_zero h hm, closing_of_zero h' hm']
  · have hopen : ∀ {first : List Char}, field = .dayOfWeek →
        digits? (field.renumber first) = some m → ¬ (first = ['S', 'U', 'N'] ∨ first = ['0']) := by
      rintro first rfl hfirst (rfl | rfl)
      · exact hzero (Option.some.inj hfirst).symm
      · exact hzero (Option.some.inj hfirst).symm
    unfold closing
    by_cases hfield : field = .dayOfWeek
    · rw [if_pos ⟨hfield, hopen hfield hm⟩, if_pos ⟨hfield, hopen hfield hm'⟩]
    · rw [if_neg fun hboth => hfield hboth.1, if_neg fun hboth => hfield hboth.1]

/-- What two values with a dash between them say when they are read as a range. -/
structure RangeReads (field : Field) (first last : List Char) (m n : Nat) (mark : Mark) :
    Prop where
  legible : field.Legible last
  plain : field.StartsPlainly (upper first) (upper last)
  starts : digits? (field.renumber (upper first)) = some m
  ends : Denotes field (field.renumber (field.closing (upper first) (upper last))) (.single n mark)
  ascends : m ≤ n

end Field

namespace Language

variable {field : Field} {first first' last last' left : List Char} {m n n' k : Nat}
  {mark mark' : Mark}

/-- The end of a range that stands for a number is read as it, except that a Sunday may be
read as 7 behind another day. -/
theorem digits?_closing (h : field.Legible last) (hk : numberOf? field last = some k)
    (hopen : field.StartsPlainly left (upper last)) (hm : digits? (field.renumber left) = some m) :
    digits? (field.renumber (field.closing left (upper last))) = some k ∨
      (field = .dayOfWeek ∧ k = 0 ∧ 0 < m) ∧
        digits? (field.renumber (field.closing left (upper last))) = some 7 := by
  rcases field.closing_eq left (upper last) with heq | ⟨rfl, hnone, rest, hlast, heq⟩
  · rw [heq]
    exact .inl (digits?_of_numberOf? h hk)
  · refine .inr ?_
    have hpos : 0 < m := by
      refine Nat.pos_of_ne_zero ?_
      rintro rfl
      exact hnone (hopen rfl (by rw [hlast]; rfl) hm)
    rcases digits_or_name_of_numberOf? h hk with ⟨hdigits, hupper⟩ | ⟨name, hname, hletters, rfl⟩
    · have hletter : 'S' ∉ last := not_mem_of_digits? hdigits (by decide)
      rw [← hupper, hlast] at hletter
      exact absurd List.mem_cons_self hletter
    · rw [hlast] at hletters
      obtain ⟨hfirst, hsecond, -, rfl⟩ : 'S' = name.first ∧ 'U' = name.second ∧
          'N' = name.third ∧ rest = [] := by
        simpa [Alias.letters] using hletters
      have hsunday : ∀ name ∈ Field.dayOfWeek.aliases, 'S' = name.first → 'U' = name.second →
          name.value = 0 := by
        decide
      rw [heq]
      exact ⟨⟨rfl, hsunday name hname hfirst hsecond, hpos⟩, by decide⟩

/-- Ranges that start at the same number and end alike end at the same number. -/
theorem end_eq_of_alike (h : field.RangeReads first last m n mark)
    (h' : field.RangeReads first' last' m n' mark') (halike : Alike field last last') :
    n = n' ∧ mark = mark' := by
  have hends := h.ends
  rcases halike with rfl | ⟨k, hk, hk'⟩
  · rw [Field.closing_congr h.plain h'.plain h.starts h'.starts] at hends
    exact Element.single.inj (hends.unique h'.ends)
  · have hle := h.ascends
    have hle' := h'.ascends
    rcases digits?_closing h.legible hk h.plain h.starts with hdigits | ⟨⟨-, rfl, hpos⟩, hdigits⟩
    · obtain ⟨rfl, rfl⟩ := Element.single.inj (h.ends.eq_single hdigits)
      rcases digits?_closing h'.legible hk' h'.plain h'.starts with hdigits' | ⟨⟨-, rfl, hpos⟩, -⟩
      · obtain ⟨rfl, rfl⟩ := Element.single.inj (h'.ends.eq_single hdigits')
        exact ⟨rfl, rfl⟩
      · omega
    · obtain ⟨rfl, rfl⟩ := Element.single.inj (h.ends.eq_single hdigits)
      rcases digits?_closing h'.legible hk' h'.plain h'.starts with hdigits' | ⟨-, hdigits'⟩
      · obtain ⟨rfl, rfl⟩ := Element.single.inj (h'.ends.eq_single hdigits')
        omega
      · obtain ⟨rfl, rfl⟩ := Element.single.inj (h'.ends.eq_single hdigits')
        exact ⟨rfl, rfl⟩

end Language

/-! ## Spans and elements -/

/-- Whether a text that holds only what its field allows is read as an element, in which a
range starts plainly. -/
structure Field.ReadsPlainly (field : Field) (text : List Char) (element : Element) : Prop where
  legible : field.Legible text
  opens : field.OpensPlainly text
  reads : field.Reads text element

namespace Field

variable {field : Field} {first last span step : List Char} {element : Element}

/-- The step of an element has no say in how its range opens. -/
theorem opensPlainly_span (h : field.OpensPlainly (span ++ '/' :: step)) :
    field.OpensPlainly span := by
  rintro ⟨first, last⟩ hcut hfield hsunday
  obtain ⟨hspan, hdash⟩ := cutAt?_eq_some_iff.mp hcut
  refine h (first, last ++ '/' :: upper step) (cutAt?_eq_some_iff.mpr ⟨?_, hdash⟩) hfield ?_
  · rw [upper_append_cons (by decide), hspan, List.append_assoc, List.cons_append]
  · rw [isPrefixOf?_append_cons (by decide), Option.isSome_map]
    exact hsunday

theorem ReadsPlainly.range_inv (h : field.ReadsPlainly (first ++ '-' :: last) element)
    (hdash : '-' ∉ first) (hslash : '/' ∉ first ++ '-' :: last) :
    ∃ m n mark, field.RangeReads first last m n mark ∧ element = .range m n mark := by
  obtain ⟨m, n, mark, hm, hend, hle, rfl⟩ := h.reads.range_inv hdash hslash
  have hcut : cutAt? '-' (upper (first ++ '-' :: last)) = some (upper first, upper last) :=
    cutAt?_eq_some_iff.mpr ⟨upper_append_cons (by decide), not_mem_upper (by decide) hdash⟩
  have hlast := (legible_append_cons field.separates_dash (by decide) h.legible).2
  exact ⟨m, n, mark, ⟨hlast, h.opens _ hcut, hm, hend, hle⟩, rfl⟩

/-- A step is read over the whole field or over what its span is read as. -/
theorem ReadsPlainly.step_inv (h : field.ReadsPlainly (span ++ '/' :: step) element)
    (hslash : '/' ∉ span) (hstar : span ≠ ['*']) :
    ∃ n, IsNumber (field.renumber (upper step)) n ∧ 0 < n ∧
      ((∃ m, field.ReadsPlainly span (.single m .plain) ∧ element = .stepped (.upFrom m) n) ∨
        ∃ m last, field.ReadsPlainly span (.range m last .plain) ∧
          element = .stepped (.between m last) n) := by
  have hlegible := (legible_append_cons field.separates_slash (by decide) h.legible).1
  have hopens := opensPlainly_span h.opens
  obtain ⟨n, hn, hpos, hcases⟩ := h.reads.step_inv hslash
  refine ⟨n, hn, hpos, ?_⟩
  rcases hcases.resolve_left fun hwhole => hstar hwhole.1 with ⟨m, hm, rfl⟩ | ⟨m, last, hm, rfl⟩
  · exact .inl ⟨m, ⟨hlegible, hopens, hm⟩, rfl⟩
  · exact .inr ⟨m, last, ⟨hlegible, hopens, hm⟩, rfl⟩

end Field

namespace Language

variable {field : Field} {text text' : List Char} {element element' : Element}

/-- Spans that are alike are read as the same element. -/
theorem eq_of_spanAlike (h : SpanAlike field text text') (hslash : '/' ∉ text)
    (hslash' : '/' ∉ text') (hread : field.ReadsPlainly text element)
    (hread' : field.ReadsPlainly text' element') : element = element' := by
  cases h with
  | single hdash hdash' halike =>
    rcases halike with rfl | ⟨n, hn, hn'⟩
    · exact hread.reads.unique hread'.reads
    · rw [hread.reads.eq_single hdash (digits?_of_numberOf? hread.legible hn),
        hread'.reads.eq_single hdash' (digits?_of_numberOf? hread'.legible hn')]
  | range hdash hdash' hfirst hlast =>
    have hsides := Field.legible_append_cons field.separates_dash (by decide) hread.legible
    have hsides' := Field.legible_append_cons field.separates_dash (by decide) hread'.legible
    obtain ⟨m, n, mark, hrange, rfl⟩ := hread.range_inv hdash hslash
    obtain ⟨m', n', mark', hrange', rfl⟩ := hread'.range_inv hdash' hslash'
    obtain rfl : m = m' := by
      have hstarts := digits?_eq_of_alike hsides.1 hsides'.1 hfirst
      rw [hrange.starts, hrange'.starts, Option.some.injEq] at hstarts
      exact hstarts
    obtain ⟨rfl, rfl⟩ := end_eq_of_alike hrange hrange' hlast
    rfl

theorem eq_star_iff_of_spanAlike (h : SpanAlike field text text') :
    text = ['*'] ↔ text' = ['*'] := by
  cases h with
  | single hdash hdash' halike =>
    rcases halike with rfl | ⟨n, hn, hn'⟩
    · exact Iff.rfl
    · have hnone : numberOf? field ['*'] = none := by
        cases field <;> decide
      have hne : ∀ {text : List Char}, numberOf? field text = some n → text ≠ ['*'] := by
        rintro text hnumber rfl
        rw [hnone] at hnumber
        cases hnumber
      exact iff_of_false (hne hn) (hne hn')
  | range =>
    have hne : ∀ left right : List Char, left ++ '-' :: right ≠ ['*'] := by
      intro left right heq
      have hdash : '-' ∈ ['*'] := heq ▸ List.mem_append_right _ List.mem_cons_self
      exact absurd hdash (by decide)
    exact iff_of_false (hne _ _) (hne _ _)

/-- Elements that are alike are read as the same element. -/
theorem eq_of_elementAlike (h : ElementAlike field text text')
    (hread : field.ReadsPlainly text element) (hread' : field.ReadsPlainly text' element') :
    element = element' := by
  cases h with
  | span hslash hslash' halike => exact eq_of_spanAlike halike hslash hslash' hread hread'
  | @stepped span span' step hslash hslash' halike =>
    by_cases hstar : span = ['*']
    · have hstar' := (eq_star_iff_of_spanAlike halike).mp hstar
      subst hstar hstar'
      exact hread.reads.unique hread'.reads
    · have hstar' := fun heq => hstar ((eq_star_iff_of_spanAlike halike).mpr heq)
      obtain ⟨n, hn, -, hcases⟩ := hread.step_inv hslash hstar
      obtain ⟨n', hn', -, hcases'⟩ := hread'.step_inv hslash' hstar'
      obtain rfl : n = n' := Option.some.inj (hn.1.symm.trans hn'.1)
      rcases hcases with ⟨m, hm, rfl⟩ | ⟨m, last, hm, rfl⟩
      · rcases hcases' with ⟨m', hm', rfl⟩ | ⟨m', last', hm', rfl⟩
        · cases eq_of_spanAlike halike hslash hslash' hm hm'
          rfl
        · cases eq_of_spanAlike halike hslash hslash' hm hm'
      · rcases hcases' with ⟨m', hm', rfl⟩ | ⟨m', last', hm', rfl⟩
        · cases eq_of_spanAlike halike hslash hslash' hm hm'
        · cases eq_of_spanAlike halike hslash hslash' hm hm'
          rfl

end Language
end CronSchedule
