import CronSchedule.Proofs.Schedule.NamePlaces
import CronSchedule.Proofs.Text.Padding

/-! # Elements with leading zeros

Numbers are read by value, so zeros in front of them do not change what an element denotes
(`Denotes.padded`).  Nor do they change how its names are replaced, as long as no name is
glued to a digit or to another name, with one exception: a range that ends on Sunday is closed
unless it starts with Sunday, and the start is compared as text.  `0-SUN` is Sunday alone and
`00-SUN` is the whole week (`padded_or_widened`).
-/
namespace CronSchedule

open Text

/-! ## What an element denotes -/

section Elements

variable {field : Field} {text zeroed base suffix : List Char} {m n : Nat} {mark : Mark}
  {element : Element}

theorem IsNumber.padded (h : IsNumber text n) (hp : Padded text zeroed) : IsNumber zeroed n :=
  ⟨hp.digits? h.1, h.2⟩

theorem IsBounds.padded (h : IsBounds field text m n) (hp : Padded text zeroed) :
    IsBounds field zeroed m n := by
  obtain ⟨first, last, rfl, hm, hn, hrange⟩ := h
  obtain ⟨first', last', rfl, hfirst, hlast⟩ := hp.cut (by decide)
  exact ⟨first', last', rfl, hfirst.digits? hm, hlast.digits? hn, hrange⟩

/-- A mark is found behind what comes before it. -/
theorem MarkText.padded (h : MarkText field suffix mark) (hp : Padded (base ++ suffix) zeroed) :
    ∃ base' suffix', zeroed = base' ++ suffix' ∧ Padded base base' ∧
      MarkText field suffix' mark := by
  cases h with
  | plain =>
    rw [List.append_nil] at hp
    exact ⟨zeroed, [], (List.append_nil _).symm, hp, .plain⟩
  | last =>
    obtain ⟨base', rest, rfl, hbase, hrest⟩ := hp.cut (by decide)
    rw [hrest.eq_nil]
    exact ⟨base', ['L'], rfl, hbase, .last⟩
  | numberedLast =>
    obtain ⟨base', rest, rfl, hbase, hrest⟩ := hp.cut (by decide)
    rw [hrest.eq_singleton (by decide)]
    exact ⟨base', ['#', 'L'], rfl, hbase, .numberedLast⟩
  | nth hcount =>
    obtain ⟨base', rest, rfl, hbase, hrest⟩ := hp.cut (by decide)
    exact ⟨base', '#' :: rest, rfl, hbase, .nth (hrest.digits? hcount)⟩

/-- Leading zeros do not change what an element denotes. -/
theorem Denotes.padded (h : Denotes field text element) (hp : Padded text zeroed) :
    Denotes field zeroed element := by
  cases h with
  | single h hmark =>
    obtain ⟨number, suffix, rfl, hnumber, hmark⟩ := hmark.padded hp
    exact .single (h.padded hnumber) hmark
  | range h hmark =>
    obtain ⟨bounds, suffix, rfl, hbounds, hmark⟩ := hmark.padded hp
    exact .range (h.padded hbounds) hmark
  | @wholeStepped step n hstep hpos =>
    obtain ⟨star, count, rfl, hstar, hcount⟩ :=
      (show Padded (['*'] ++ '/' :: step) zeroed from hp).cut (by decide)
    rw [hstar.eq_singleton (by decide)]
    exact .wholeStepped (hstep.padded hcount) hpos
  | steppedFrom h hstep hpos =>
    obtain ⟨first, step, rfl, hfirst, hcount⟩ := hp.cut (by decide)
    exact .steppedFrom (h.padded hfirst) (hstep.padded hcount) hpos
  | steppedBetween h hstep hpos =>
    obtain ⟨bounds, step, rfl, hbounds, hcount⟩ := hp.cut (by decide)
    exact .steppedBetween (h.padded hbounds) (hstep.padded hcount) hpos
  | lastDay hfield =>
    rw [hp.eq_singleton (by decide)]
    exact .lastDay hfield
  | nearestWeekday h =>
    obtain ⟨day, rest, rfl, hday, hrest⟩ := hp.cut (by decide)
    rw [hrest.eq_nil]
    exact .nearestWeekday (h.padded hday)

end Elements

/-! ## How names are replaced -/

namespace Field

variable {field : Field} {text zeroed span tail first last other : List Char} {c : Char}
  {element : Element}

/-- A number keeps its zeros, and a name has none. -/
theorem padded_renumber (h : field.IsWhole text) (hp : Padded text zeroed) :
    Padded (field.renumber text) (field.renumber zeroed) := by
  rcases h with ⟨-, hdigits⟩ | ⟨name, hname, rfl⟩
  · rwa [renumber_digits hdigits, renumber_digits (hp.forall_mem hdigits rfl)]
  · rw [hp.eq_self (field.isDigit_of_mem_letters name hname)]
    exact .refl _

/-- Whether a range that starts with the text is left open when it ends on Sunday. -/
def Opens (first : List Char) : Prop := first = ['S', 'U', 'N'] ∨ first = ['0']

/-- Only the start of a range decides whether it is closed. -/
theorem closing_eq_of_opens (h : Opens first ↔ Opens other) :
    field.closing first last = field.closing other last := by
  unfold closing
  by_cases hopens : Opens first
  · rw [if_neg fun hclosed => hclosed.2 hopens, if_neg fun hclosed => hclosed.2 (h.mp hopens)]
  · by_cases hfield : field = .dayOfWeek
    · rw [if_pos ⟨hfield, hopens⟩, if_pos ⟨hfield, mt h.mpr hopens⟩]
    · rw [if_neg fun hclosed => hfield hclosed.1, if_neg fun hclosed => hfield hclosed.1]

theorem closing_of_opens (h : Opens first) : field.closing first last = last :=
  if_neg fun hclosed => hclosed.2 h

theorem closing_of_digits (h : ∀ c ∈ last, c.isDigit = true) : field.closing first last = last := by
  rcases field.closing_eq first last with heq | ⟨-, -, rest, rfl, -⟩
  · exact heq
  · exact absurd (h 'S' List.mem_cons_self) (by decide)

/-- A whole value opens a range as it did before, but a lone 0 does so only without zeros in
front of it. -/
theorem opens_iff_of_padded (h : field.IsWhole first) (hp : Padded first other) :
    (Opens first ↔ Opens other) ∨ first = ['0'] ∧ other ≠ ['0'] := by
  rcases h with ⟨hne, hdigits⟩ | ⟨name, hname, rfl⟩
  · have hopens : ∀ {text : List Char}, (∀ c ∈ text, c.isDigit = true) → text ≠ ['0'] →
        ¬ Opens text := by
      rintro text hall hzero (rfl | rfl)
      · exact absurd (hall 'S' List.mem_cons_self) (by decide)
      · exact hzero rfl
    by_cases hfirst : first = ['0']
    · by_cases hother : other = ['0']
      · exact .inl (iff_of_true (.inr hfirst) (.inr hother))
      · exact .inr ⟨hfirst, hother⟩
    · have hother : other ≠ ['0'] := by
        rintro rfl
        obtain ⟨zeros, heq⟩ := hp.exists_zeros hdigits
        have hlength := congrArg List.length heq
        have hpos := List.length_pos_of_ne_nil hne
        rw [List.length_append, List.length_replicate, List.length_singleton] at hlength
        obtain rfl : zeros = 0 := by omega
        exact hfirst heq.symm
      have hzeroed : ∀ c ∈ other, c.isDigit = true := hp.forall_mem hdigits rfl
      exact .inl (iff_of_false (hopens hdigits hfirst) (hopens hzeroed hother))
  · rw [hp.eq_self (field.isDigit_of_mem_letters name hname)]
    exact .inl Iff.rfl

/-- Whether a range from 0 to Sunday has lost its lone 0. -/
def LosesZero (text zeroed : List Char) : Prop :=
  ['0', '-', 'S', 'U', 'N'] <+: text ∧ ¬ ['0', '-'] <+: zeroed

instance (text zeroed : List Char) : Decidable (LosesZero text zeroed) :=
  inferInstanceAs (Decidable (_ ∧ _))

/-- Whether the lone 0 of each range from 0 to Sunday stays alone, in a list of weekdays. -/
def KeepsZeros (field : Field) (token zeroed : List Char) : Prop :=
  field = .dayOfWeek → ∀ pair ∈ ((upper token).splitOn ',').zip ((upper zeroed).splitOn ','),
    ¬ LosesZero pair.1 pair.2

instance (field : Field) (token zeroed : List Char) : Decidable (field.KeepsZeros token zeroed) :=
  inferInstanceAs (Decidable (_ → _))

/-- Whether the second text goes on to 7 where the first ends at 0, zeros apart. -/
def Widened (text zeroed : List Char) : Prop :=
  ∃ first tail, '-' ∉ first ∧ (∀ c, tail.head? = some c → c.isDigit = false) ∧
    Padded text (first ++ '-' :: '0' :: tail) ∧ zeroed = first ++ '-' :: '7' :: tail

/-- The values of an element are replaced alike, or they are the range from 0 to Sunday. -/
theorem padded_or_eq_of_spanText (h : SpanText field.IsWhole span) (hp : Padded span zeroed) :
    Padded (field.resolve span) (field.resolve zeroed) ∨
      field = .dayOfWeek ∧ span = ['0', '-', 'S', 'U', 'N'] ∧
        ∃ first, Padded ['0'] first ∧ first ≠ ['0'] ∧ zeroed = first ++ ['-', 'S', 'U', 'N'] := by
  cases h with
  | single h =>
    have hdash := not_mem_of_isWhole h (by decide) field.separates_dash
    rw [resolve_eq_renumber hdash, resolve_eq_renumber (hp.not_mem (by decide) hdash)]
    exact .inl (padded_renumber h hp)
  | @range first last hfirst hlast =>
    obtain ⟨first', last', rfl, hpfirst, hplast⟩ := hp.cut (by decide)
    have hdash := not_mem_of_isWhole hfirst (by decide) field.separates_dash
    rw [resolve_append_dash hdash, resolve_append_dash (hpfirst.not_mem (by decide) hdash)]
    have hrange := fun hclosing : Padded (field.renumber (field.closing first last))
        (field.renumber (field.closing first' last')) =>
      (padded_renumber hfirst hpfirst).append_cons (c := '-') (by decide) hclosing
    rcases hlast with hnumber | ⟨name, hname, rfl⟩
    · have hlast' : ∀ c ∈ last', c.isDigit = true := hplast.forall_mem hnumber.2 rfl
      refine .inl (hrange ?_)
      rw [closing_of_digits hnumber.2, closing_of_digits hlast']
      exact padded_renumber (.inl hnumber) hplast
    · rw [hplast.eq_self (field.isDigit_of_mem_letters name hname)] at hrange ⊢
      rcases opens_iff_of_padded hfirst hpfirst with hopens | ⟨rfl, hzero⟩
      · refine .inl (hrange ?_)
        rw [closing_eq_of_opens hopens]
        exact .refl _
      · rcases field.closing_eq first' name.letters with heq | ⟨rfl, -, rest, hsunday, -⟩
        · refine .inl (hrange ?_)
          rw [closing_of_opens (.inr rfl), heq]
          exact .refl _
        · -- the name is that of Sunday, and the start is no longer a lone 0
          have hletters : name.letters = ['S', 'U', 'N'] := by
            rw [hsunday]
            rw [Alias.letters] at hsunday
            simp only [List.cons.injEq] at hsunday
            rw [← hsunday.2.2.2]
          rw [hletters]
          exact .inr ⟨rfl, rfl, first', hpfirst, hzero, rfl⟩

/-- What follows the values of an element starts with a character of its own and goes on
without a dash. -/
theorem tail_cases (h : TailText field field.IsWhole tail) :
    tail = [] ∨ ∃ c rest, tail = c :: rest ∧ (c.isDigit = false ∧ field.Separates c ∧ c ≠ '-') ∧
      '-' ∉ rest ∧ ∀ zeroed, Padded rest zeroed →
        Padded (field.renumber rest) (field.renumber zeroed) := by
  have hdash : ∀ {text : List Char}, field.IsWhole text → '-' ∉ text := fun htext =>
    not_mem_of_isWhole htext (by decide) field.separates_dash
  cases h with
  | none => exact .inl rfl
  | step h =>
    exact .inr ⟨'/', _, rfl, ⟨by decide, field.separates_slash, by decide⟩, hdash h,
      fun _ => padded_renumber h⟩
  | last hfield =>
    subst hfield
    refine .inr ⟨'L', [], rfl, by decide, List.not_mem_nil, fun zeroed hp => ?_⟩
    rw [hp.eq_nil]
    exact .refl _
  | numberedLast hfield =>
    subst hfield
    refine .inr ⟨'#', ['L'], rfl, by decide, by decide, fun zeroed hp => ?_⟩
    rw [hp.eq_singleton (by decide)]
    exact .refl _
  | nth _ h =>
    exact .inr ⟨'#', _, rfl, ⟨by decide, field.separates_hash, by decide⟩, hdash h,
      fun _ => padded_renumber h⟩

/-- A range to Sunday that starts with more than one digit is closed. -/
theorem resolve_to_sunday (h : Padded ['0'] first) (hzero : first ≠ ['0']) :
    dayOfWeek.resolve (first ++ ['-', 'S', 'U', 'N']) = first ++ ['-', '7'] := by
  have hdigits : ∀ c ∈ first, c.isDigit = true :=
    h.forall_mem (List.forall_mem_singleton.mpr rfl) rfl
  have hdash : '-' ∉ first := h.not_mem (by decide) (by decide)
  have hopens : ¬ Opens first := by
    rintro (rfl | rfl)
    · exact absurd (hdigits 'S' List.mem_cons_self) (by decide)
    · exact hzero rfl
  have hclosing : dayOfWeek.closing first ['S', 'U', 'N'] = ['7'] := if_pos ⟨rfl, hopens⟩
  rw [resolve_append_dash hdash, hclosing, renumber_digits hdigits]
  rfl

/-- What a range from 0 to Sunday becomes once zeros stand in front, with the rest of its
element. -/
theorem losesZero_and_widened {rest rest' : List Char} (h : Padded ['0'] first)
    (hzero : first ≠ ['0']) (hend : ∀ c, other.head? = some c → c.isDigit = false)
    (hp : Padded ('0' :: tail) ('0' :: other)) :
    LosesZero (['0', '-', 'S', 'U', 'N'] ++ rest) (first ++ ['-', 'S', 'U', 'N'] ++ rest') ∧
      Widened (dayOfWeek.resolve ['0', '-', 'S', 'U', 'N'] ++ tail)
        (dayOfWeek.resolve (first ++ ['-', 'S', 'U', 'N']) ++ other) := by
  have hdash : '-' ∉ first := h.not_mem (by decide) (by decide)
  refine ⟨⟨List.prefix_append _ _, ?_⟩, first, other, hdash, hend, ?_, ?_⟩
  · rintro ⟨more, hmore⟩
    rw [List.append_assoc] at hmore
    exact hzero (append_cons_inj hdash (show '-' ∉ ['0'] by decide) hmore.symm).1
  · rw [show dayOfWeek.resolve ['0', '-', 'S', 'U', 'N'] = ['0', '-', '0'] by decide]
    exact h.append_cons (c := '-') (by decide) hp
  · rw [resolve_to_sunday h hzero, List.append_assoc]
    rfl

/-- What zeros do to an element once its names are replaced: they stay zeros in front of its
numbers, or a range from 0 to Sunday has lost its lone 0 and goes on to 7. -/
inductive PaddedOrWidened (field : Field) (text zeroed : List Char) : Prop
  | padded (h : Padded (field.resolve text) (field.resolve zeroed))
  | widened (hfield : field = .dayOfWeek) (hzero : LosesZero text zeroed)
      (h : Widened (field.resolve text) (field.resolve zeroed))

/-- **Zeros and names.**  An element of whole values has its names replaced as without the
zeros, or it is a range from 0 to Sunday that has lost its lone 0 and goes on to 7. -/
theorem padded_or_widened (h : Written field field.IsWhole field.IsWhole text)
    (hp : Padded text zeroed) : PaddedOrWidened field text zeroed := by
  cases h with
  | @values span tail hspan htail =>
    rcases tail_cases htail with rfl | ⟨c, rest, rfl, ⟨hdigit, hc, hcdash⟩, hdash, hrest⟩
    · rw [List.append_nil] at hp ⊢
      rcases padded_or_eq_of_spanText hspan hp with hpadded | ⟨rfl, rfl, first, hfirst, hzero, rfl⟩
      · exact .padded hpadded
      · have hwide := @losesZero_and_widened [] first [] [] [] hfirst hzero
          (fun _ hc => by cases hc) (.refl _)
        simp only [List.append_nil] at hwide
        exact .widened rfl hwide.1 hwide.2
    · obtain ⟨span', rest', rfl, hpspan, hprest⟩ := hp.cut hdigit
      have hdash' := hprest.not_mem (by decide) hdash
      have hptail := hrest rest' hprest
      have hresolve : field.resolve (span ++ c :: rest) = _ :=
        resolve_append_cons hc hcdash (.inr hdash)
      have hresolve' : field.resolve (span' ++ c :: rest') = _ :=
        resolve_append_cons hc hcdash (.inr hdash')
      rcases padded_or_eq_of_spanText hspan hpspan with
        hpadded | ⟨rfl, rfl, first, hfirst, hzero, rfl⟩
      · refine .padded ?_
        rw [hresolve, hresolve']
        exact hpadded.append_cons hdigit hptail
      · have hend : ∀ d, (c :: dayOfWeek.renumber rest').head? = some d → d.isDigit = false := by
          intro d hd
          obtain rfl := Option.some.inj hd
          exact hdigit
        obtain ⟨hloses, hwide⟩ := @losesZero_and_widened _ first _ (c :: rest) (c :: rest') hfirst
          hzero hend ((Padded.refl ['0']).append_cons hdigit hptail)
        refine .widened rfl hloses ?_
        rwa [hresolve, hresolve']
  | @star step hstep =>
    obtain ⟨star, count, rfl, hstar, hcount⟩ :=
      (show Padded (['*'] ++ '/' :: step) zeroed from hp).cut (by decide)
    have hdash := not_mem_of_isWhole hstep (by decide) field.separates_dash
    refine .padded ?_
    rw [hstar.eq_singleton (by decide),
      show '*' :: '/' :: step = ['*'] ++ '/' :: step from rfl,
      resolve_append_cons field.separates_slash (by decide) (.inr hdash),
      resolve_append_cons field.separates_slash (by decide)
        (.inr (hcount.not_mem (by decide) hdash))]
    exact (Padded.refl _).append_cons (by decide) (padded_renumber hstep hcount)

/-- Without names there is nothing to replace. -/
theorem resolve_eq_self (h : field.aliases = []) (text : List Char) :
    field.resolve text = text := by
  have hfield : field ≠ .dayOfWeek := by
    rintro rfl
    cases h
  rw [resolve, close, if_neg hfield, renumber, h]
  rfl

/-- The elements of an accepted word, and of the word with zeros in it. -/
theorem padded_or_widened_of_denotes
    (hchars : ∀ c ∈ field.resolve text, field.allows c = true)
    (h : Denotes field (field.resolve text) element) (halone : Unglued field text)
    (hp : Padded text zeroed) : PaddedOrWidened field text zeroed := by
  by_cases hnames : field.aliases = []
  · refine .padded ?_
    rwa [resolve_eq_self hnames, resolve_eq_self hnames]
  · have hfield : field ≠ .dayOfMonth := by
      rintro rfl
      exact hnames rfl
    exact padded_or_widened (written_of_unglued (written_of_denotes hfield hchars h) halone) hp

end Field

/-! ## Elements that go on to 7 -/

section Widened

variable {text zeroed first tail : List Char} {element : Element}

/-- The numbers of a range of weekdays that ends at 0 may as well go on to 7. -/
theorem isBounds_to_seven {bounds rest : List Char} {m n : Nat} (h : IsBounds .dayOfWeek bounds m n)
    (heq : first ++ '-' :: '0' :: tail = bounds ++ rest) (hdash : '-' ∉ first)
    (hend : ∀ c, tail.head? = some c → c.isDigit = false) :
    tail = rest ∧ IsBounds .dayOfWeek (first ++ ['-', '7']) m 7 := by
  obtain ⟨left, right, rfl, hm, hn, hmin, hle, hmax⟩ := h
  rw [List.append_assoc, List.cons_append] at heq
  obtain ⟨rfl, hright⟩ := append_cons_inj hdash (not_mem_of_digits? hm (by decide)) heq
  obtain ⟨hne, hdigits⟩ := digits?_eq_some hn
  obtain ⟨d, more, rfl⟩ := List.exists_cons_of_ne_nil hne
  obtain ⟨-, rfl⟩ := List.cons.inj hright
  refine ⟨?_, first, ['7'], rfl, hm, rfl, hmin, Nat.le_trans hle hmax, Nat.le_refl 7⟩
  -- the end of the range is the 0 alone
  cases more with
  | nil => rfl
  | cons e more =>
    have hdigit := hdigits e (List.mem_cons_of_mem _ List.mem_cons_self)
    rw [hend e rfl] at hdigit
    cases hdigit

/-- A range of weekdays that ends at 0 may as well end at 7. -/
theorem exists_denotes_of_zero (h : Denotes .dayOfWeek (first ++ '-' :: '0' :: tail) element)
    (hdash : '-' ∉ first) (hend : ∀ c, tail.head? = some c → c.isDigit = false) :
    ∃ later, Denotes .dayOfWeek (first ++ '-' :: '7' :: tail) later ∧ later.Fits .dayOfWeek := by
  obtain ⟨bounds, rest, m, n, htext, hbounds, hrest⟩ :=
    h.dash_inv (List.mem_append_right _ List.mem_cons_self)
  obtain ⟨rfl, hwide⟩ := isBounds_to_seven hbounds htext hdash hend
  have hlong : first ++ '-' :: '7' :: tail = (first ++ ['-', '7']) ++ tail := by
    rw [List.append_assoc]
    rfl
  rw [hlong]
  rcases hrest with ⟨mark, hmark, -⟩ | ⟨step, count, rfl, hstep, hpos, -⟩
  · exact ⟨_, .range hwide hmark,
      Element.fits_range (Nat.zero_le _) (Nat.le_refl 7) (Element.supports_of_markText hmark)⟩
  · have hlast : (Span.between m 7).last .dayOfWeek ≤ Field.dayOfWeek.max := Nat.le_refl 7
    exact ⟨_, .steppedBetween hwide hstep hpos,
      (Element.fits_stepped_iff hpos hlast).mpr fun _ => Nat.zero_le _⟩

/-- What goes on to 7 denotes something that fits, where the text that ends at 0 does. -/
theorem exists_denotes_of_widened (h : Denotes .dayOfWeek text element)
    (hw : Field.Widened text zeroed) :
    ∃ later, Denotes .dayOfWeek zeroed later ∧ later.Fits .dayOfWeek := by
  obtain ⟨first, tail, hdash, hend, hp, rfl⟩ := hw
  exact exists_denotes_of_zero (h.padded hp) hdash hend

/-- What goes on to 7 holds digits besides the characters of the text that ends at 0. -/
theorem mem_of_widened {c : Char} (hw : Field.Widened text zeroed) (hc : c ∈ zeroed) :
    c ∈ text ∨ c.isDigit = true := by
  obtain ⟨first, tail, -, -, hp, rfl⟩ := hw
  have hzero : ∀ {d : Char}, d ∈ first ++ '-' :: '0' :: tail → d ∈ text ∨ d.isDigit = true := by
    intro d hd
    rcases hp.mem hd with hmem | rfl
    · exact .inl hmem
    · exact .inr rfl
  simp only [List.mem_append, List.mem_cons] at hc hzero
  rcases hc with hc | rfl | rfl | hc
  · exact hzero (.inl hc)
  · exact hzero (.inr (.inl rfl))
  · exact .inr rfl
  · exact hzero (.inr (.inr (.inr hc)))

end Widened

end CronSchedule
