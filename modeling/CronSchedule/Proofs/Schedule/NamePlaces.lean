import CronSchedule.Proofs.Schedule.TokenMeaning

/-! # Where names stand in accepted elements

Names are replaced before an element is read, so whatever becomes a number may have been
written as one: digits and names, one after the other (`Field.IsBlend`).  `Written` gives the
forms of an element with what may stand for its values and for its counts left open.  An
accepted element is written with such blends in every place (`written_of_denotes`).  It is
written with whole names for values only, and with numbers for its steps and counts, exactly
when each of its names stands alone (`written_iff_standAlone`).
-/
namespace CronSchedule

open Text

/-! ## Digits and names -/

/-- Whether a text is a decimal number. -/
def IsNumeral (text : List Char) : Prop := text ≠ [] ∧ ∀ c ∈ text, c.isDigit = true

/-- A text of digits and names, in any order. -/
inductive Blend (names : List Alias) : List Char → Prop
  | nil : Blend names []
  | digit {c : Char} {rest : List Char} (hc : c.isDigit = true) (h : Blend names rest) :
    Blend names (c :: rest)
  | name {name : Alias} {rest : List Char} (hname : name ∈ names) (h : Blend names rest) :
    Blend names (name.letters ++ rest)

namespace Blend

variable {name : Alias} {names : List Alias} {text digits rest : List Char} {c : Char}

theorem of_digits (h : ∀ c ∈ text, c.isDigit = true) : Blend names text := by
  induction text with
  | nil => exact .nil
  | cons c text ih =>
    exact .digit (h c List.mem_cons_self) (ih fun d hd => h d (List.mem_cons_of_mem _ hd))

theorem mono (h : Blend names text) : Blend (name :: names) text := by
  induction h with
  | nil => exact .nil
  | digit hc _ ih => exact .digit hc ih
  | name hname _ ih => exact .name (List.mem_cons_of_mem _ hname) ih

variable (hletters : ∀ name ∈ names, ∀ c ∈ name.letters, c.isDigit = false)

include hletters in
/-- What starts with a digit goes on as a blend. -/
theorem of_digits_append (hdigits : ∀ c ∈ digits, c.isDigit = true)
    (h : Blend names (digits ++ rest)) : Blend names rest := by
  induction digits with
  | nil => exact h
  | cons c digits ih =>
    refine ih (fun d hd => hdigits d (List.mem_cons_of_mem _ hd)) ?_
    generalize hwhole : c :: digits ++ rest = whole at h
    cases h with
    | nil => cases hwhole
    | digit _ h =>
      obtain ⟨-, rfl⟩ := List.cons.inj hwhole
      exact h
    | @name name later hname h =>
      obtain ⟨rfl, -⟩ := List.cons.inj hwhole
      have hdigit := hdigits _ List.mem_cons_self
      rw [hletters name hname _ List.mem_cons_self] at hdigit
      cases hdigit

include hletters in
/-- A text is a blend when it is one after a name is replaced. -/
theorem of_replaceIn (h : Blend names (name.replaceIn text)) : Blend (name :: names) text := by
  induction hn : text.length using Nat.strongRecOn generalizing text with
  | ind n ih =>
    unfold Alias.replaceIn at h
    split at h
    · rename_i x y z rest
      split at h
      · rename_i hname
        obtain ⟨rfl, rfl, rfl⟩ := hname
        have hrest := of_digits_append hletters
          (fun _ => isDigit_of_mem_decimal) h
        exact .name List.mem_cons_self
          (ih rest.length (by rw [← hn]; simp only [List.length_cons]; omega) hrest rfl)
      · generalize hwhole : x :: name.replaceIn (y :: z :: rest) = whole at h
        cases h with
        | nil => cases hwhole
        | digit hc h =>
          obtain ⟨rfl, rfl⟩ := List.cons.inj hwhole
          exact .digit hc (ih (y :: z :: rest).length (by rw [← hn]; simp) h rfl)
        | @name other later hother h =>
          -- no letter of another name is a digit, so the name stands in the text itself
          obtain ⟨rfl, hafter⟩ := List.cons.inj hwhole
          have hdigit := hletters other hother
          obtain ⟨tail, htail, hlater⟩ := Alias.replaceIn_eq_cons
            (hdigit other.second (by simp [Alias.letters])) hafter
          obtain ⟨tail', rfl, rfl⟩ := Alias.replaceIn_eq_cons
            (hdigit other.third (by simp [Alias.letters])) hlater.symm
          rw [htail] at hn ⊢
          exact .name (List.mem_cons_of_mem _ hother)
            (ih tail'.length (by rw [← hn]; simp only [List.length_cons]; omega) h rfl)
    · exact h.mono

/-- A blend is digits alone, or digits up to a first name. -/
theorem digits_or_name (h : Blend names text) :
    (∀ c ∈ text, c.isDigit = true) ∨
      ∃ digits name rest, name ∈ names ∧ text = digits ++ name.letters ++ rest ∧
        (∀ c ∈ digits, c.isDigit = true) ∧ Blend names rest := by
  induction h with
  | nil => exact .inl fun c hc => absurd hc List.not_mem_nil
  | @digit c rest hc _ ih =>
    rcases ih with hall | ⟨digits, name, later, hname, rfl, hdigits, hlater⟩
    · exact .inl (List.forall_mem_cons.mpr ⟨hc, hall⟩)
    · exact .inr ⟨c :: digits, name, later, hname, rfl,
        List.forall_mem_cons.mpr ⟨hc, hdigits⟩, hlater⟩
  | @name name rest hname h _ =>
    exact .inr ⟨[], name, rest, hname, rfl, fun c hc => absurd hc List.not_mem_nil, h⟩

/-- A blend starts with a digit or with a letter of a name. -/
theorem head (h : Blend names (c :: text)) :
    c.isDigit = true ∨ ∃ name ∈ names, c ∈ name.letters := by
  generalize hwhole : c :: text = whole at h
  cases h with
  | nil => cases hwhole
  | digit hc h => exact .inl ((List.cons.inj hwhole).1 ▸ hc)
  | @name name later hname h =>
    exact .inr ⟨name, hname, (List.cons.inj hwhole).1 ▸ List.mem_cons_self⟩

end Blend

namespace Field

variable {field : Field} {text left right : List Char} {c : Char}

/-- Whether a text is one value: a number, or one name of the field. -/
def IsWhole (field : Field) (text : List Char) : Prop :=
  IsNumeral text ∨ ∃ name ∈ field.aliases, text = name.letters

/-- Whether a text is digits and names of the field, one after the other. -/
def IsBlend (field : Field) (text : List Char) : Prop := text ≠ [] ∧ Blend field.aliases text

theorem isDigit_of_mem_letters : ∀ name ∈ field.aliases, ∀ c ∈ name.letters, c.isDigit = false := by
  have hall : (field.aliases.all fun name => name.letters.all fun c => !c.isDigit) = true := by
    cases field <;> decide
  intro name hname c hc
  have hletter := List.all_eq_true.mp (List.all_eq_true.mp hall name hname) c hc
  rwa [Bool.not_eq_true'] at hletter

theorem blend_of_renumber (h : ∀ c ∈ field.renumber text, c.isDigit = true) :
    Blend field.aliases text := by
  have hletters := field.isDigit_of_mem_letters
  unfold renumber at h
  generalize field.aliases = names at h hletters
  induction names generalizing text with
  | nil => exact .of_digits h
  | cons name names ih =>
    rw [List.forall_mem_cons] at hletters
    exact .of_replaceIn hletters.2 (ih h hletters.2)

theorem isBlend_of_renumber (h : IsNumeral (field.renumber text)) : field.IsBlend text := by
  refine ⟨?_, blend_of_renumber h.2⟩
  rintro rfl
  exact h.1 field.renumber_nil

/-- The end of a range is a blend as it was written, also where it is a Sunday. -/
theorem isBlend_of_closing (h : IsNumeral (field.renumber (field.closing left right))) :
    field.IsBlend right := by
  rcases field.closing_eq left right with heq | ⟨rfl, -, rest, rfl, heq⟩
  · rw [heq] at h
    exact isBlend_of_renumber h
  · rw [heq, renumber_cons (show dayOfWeek.Separates '7' by decide)] at h
    refine ⟨List.cons_ne_nil _ _, ?_⟩
    exact .name (show ⟨'S', 'U', 'N', 0⟩ ∈ dayOfWeek.aliases from List.mem_cons_self)
      (blend_of_renumber (List.forall_mem_cons.mp h.2).2)

end Field

/-! ## Forms of an element -/

/-- One value, or two with a dash between them. -/
inductive SpanText (value : List Char → Prop) : List Char → Prop
  | single {text : List Char} (h : value text) : SpanText value text
  | range {first last : List Char} (hfirst : value first) (hlast : value last) :
    SpanText value (first ++ '-' :: last)

/-- What may follow the values of an element: nothing, a step or, for weekdays, a mark. -/
inductive TailText (field : Field) (count : List Char → Prop) : List Char → Prop
  | none : TailText field count []
  | step {text : List Char} (h : count text) : TailText field count ('/' :: text)
  | last (hfield : field = .dayOfWeek) : TailText field count ['L']
  | numberedLast (hfield : field = .dayOfWeek) : TailText field count ['#', 'L']
  | nth {text : List Char} (hfield : field = .dayOfWeek) (h : count text) :
    TailText field count ('#' :: text)

/-- The forms of an element of months or weekdays, given what may stand for a value and
what for a step or a count. -/
inductive Written (field : Field) (value count : List Char → Prop) : List Char → Prop
  | values {span tail : List Char} (hspan : SpanText value span)
    (htail : TailText field count tail) : Written field value count (span ++ tail)
  | star {step : List Char} (h : count step) : Written field value count ('*' :: '/' :: step)

section Written

variable {field : Field} {text base suffix : List Char} {m n : Nat} {mark : Mark}
  {element : Element}

theorem isNumeral_of_digits? (h : digits? text = some n) : IsNumeral text := digits?_eq_some h

theorem Field.eq_dayOfMonth_of_allows (h : field.allows 'W' = true) : field = .dayOfMonth := by
  revert h
  cases field <;> decide

theorem spanText_of_isNumber (h : IsNumber (field.resolve text) n) :
    SpanText field.IsBlend text := by
  have hdash : '-' ∉ text := by
    intro hmem
    obtain ⟨left, right, rfl, hleft⟩ := List.eq_append_cons_of_mem hmem
    rw [Field.resolve_append_dash hleft] at h
    exact h.not_mem (by decide) (List.mem_append_right _ List.mem_cons_self)
  rw [Field.resolve_eq_renumber hdash] at h
  exact .single (Field.isBlend_of_renumber (isNumeral_of_digits? h.1))

theorem spanText_of_isBounds (h : IsBounds field (field.resolve text) m n) :
    SpanText field.IsBlend text := by
  obtain ⟨first, last, heq, hm, hn, -⟩ := h
  have hdash : '-' ∈ text := Field.mem_of_mem_resolve (by decide)
    (heq ▸ List.mem_append_right _ List.mem_cons_self)
  obtain ⟨left, right, rfl, hleft⟩ := List.eq_append_cons_of_mem hdash
  rw [Field.resolve_append_dash hleft] at heq
  obtain ⟨rfl, rfl⟩ := append_cons_inj (Field.not_mem_renumber (by decide) hleft)
    (not_mem_of_digits? hm (by decide)) heq
  exact .range (Field.isBlend_of_renumber (isNumeral_of_digits? hm))
    (Field.isBlend_of_closing (isNumeral_of_digits? hn))

/-- The mark of a resolved element was written behind its values. -/
theorem exists_tail_of_markText (hmark : MarkText field suffix mark) (hlast : 'L' ∉ base)
    (hhash : '#' ∉ base) (h : field.resolve text = base ++ suffix) :
    ∃ span tail, text = span ++ tail ∧ field.resolve span = base ∧
      TailText field field.IsBlend tail := by
  cases hmark with
  | plain => exact ⟨text, [], (List.append_nil _).symm, by rw [h, List.append_nil], .none⟩
  | last =>
    obtain ⟨span, rest, rfl, hspan, hrest⟩ := Field.exists_cut_of_resolve (by decide) (by decide)
      (by decide) hlast List.not_mem_nil h
    exact ⟨span, _, rfl, hspan, Field.renumber_eq_nil hrest ▸ .last rfl⟩
  | numberedLast =>
    obtain ⟨span, rest, rfl, hspan, hrest⟩ := Field.exists_cut_of_resolve (by decide) (by decide)
      (by decide) hhash (by decide) h
    exact ⟨span, _, rfl, hspan,
      Field.eq_singleton_of_renumber (by decide) hrest ▸ .numberedLast rfl⟩
  | nth hcount =>
    obtain ⟨span, rest, rfl, hspan, rfl⟩ := Field.exists_cut_of_resolve (by decide) (by decide)
      (by decide) hhash (not_mem_of_digits? hcount (by decide)) h
    exact ⟨span, _, rfl, hspan,
      .nth rfl (Field.isBlend_of_renumber (isNumeral_of_digits? hcount))⟩

/-- A step of a resolved element was written as a blend. -/
theorem exists_tail_of_step {step : List Char} (hbase : '/' ∉ base) (hstep : IsNumber step n)
    (h : field.resolve text = base ++ '/' :: step) :
    ∃ span rest, text = span ++ '/' :: rest ∧ field.resolve span = base ∧ field.IsBlend rest := by
  obtain ⟨span, rest, rfl, hspan, rfl⟩ := Field.exists_cut_of_resolve field.separates_slash
    (by decide) (by decide) hbase (hstep.not_mem (by decide)) h
  exact ⟨span, rest, rfl, hspan, Field.isBlend_of_renumber (isNumeral_of_digits? hstep.1)⟩

/-- What denotes an element once its names are replaced has a blend in every place. -/
theorem written_of_denotes (hfield : field ≠ .dayOfMonth)
    (hchars : ∀ c ∈ field.resolve text, field.allows c = true)
    (h : Denotes field (field.resolve text) element) :
    Written field field.IsBlend field.IsBlend text := by
  generalize heq : field.resolve text = resolved at h hchars
  cases h with
  | single h hmark =>
    obtain ⟨span, tail, rfl, rfl, htail⟩ := exists_tail_of_markText hmark
      (h.not_mem (by decide)) (h.not_mem (by decide)) heq
    exact .values (spanText_of_isNumber h) htail
  | range h hmark =>
    obtain ⟨span, tail, rfl, rfl, htail⟩ := exists_tail_of_markText hmark
      (h.not_mem (by decide) (by decide)) (h.not_mem (by decide) (by decide)) heq
    exact .values (spanText_of_isBounds h) htail
  | wholeStepped hstep =>
    obtain ⟨span, rest, rfl, hspan, hrest⟩ := exists_tail_of_step (by decide) hstep
      (show field.resolve text = ['*'] ++ '/' :: _ from heq)
    rw [Field.eq_star_of_resolve hspan]
    exact .star hrest
  | steppedFrom h hstep =>
    obtain ⟨span, rest, rfl, rfl, hrest⟩ := exists_tail_of_step (h.not_mem (by decide)) hstep heq
    exact .values (spanText_of_isNumber h) (.step hrest)
  | steppedBetween h hstep =>
    obtain ⟨span, rest, rfl, rfl, hrest⟩ :=
      exists_tail_of_step (h.not_mem (by decide) (by decide)) hstep heq
    exact .values (spanText_of_isBounds h) (.step hrest)
  | lastDay hday => exact absurd hday hfield
  | nearestWeekday h =>
    have hallows := hchars 'W' (List.mem_append_right _ List.mem_cons_self)
    exact absurd (Field.eq_dayOfMonth_of_allows hallows) hfield

end Written

/-! ## Names that stand alone -/

/-- A name between two parts of an element stands alone when neither a digit nor a letter of
a name is next to it, and it is part of no step or count. -/
structure Apart (field : Field) (left right : List Char) : Prop where
  separated : ∀ c, left.getLast? = some c ∨ right.head? = some c →
    c.isDigit = false ∧ field.Separates c
  noCount : '/' ∉ left ∧ '#' ∉ left

/-- Whether every name in an element stands alone. -/
def StandAlone (field : Field) (text : List Char) : Prop :=
  ∀ name ∈ field.aliases, ∀ left right, text = left ++ name.letters ++ right →
    Apart field left right

/-- Whether every name in a text has neither a digit nor a letter of a name next to it. -/
def Unglued (field : Field) (text : List Char) : Prop :=
  ∀ name ∈ field.aliases, ∀ left right, text = left ++ name.letters ++ right →
    ∀ c, left.getLast? = some c ∨ right.head? = some c → c.isDigit = false ∧ field.Separates c

section StandAlone

variable {field : Field} {name : Alias} {text whole left right tail : List Char} {c : Char}

theorem StandAlone.unglued (h : StandAlone field text) : Unglued field text := by
  intro name hname left right heq
  exact (h name hname left right heq).separated

/-- Names that are not glued to anything are not so in a part of the text. -/
theorem Unglued.of_infix (h : Unglued field whole) (hin : text <:+: whole) :
    Unglued field text := by
  obtain ⟨before, after, rfl⟩ := hin
  rintro name hname left right rfl c hc
  refine h name hname (before ++ left) (right ++ after) (by simp) c (hc.imp ?_ ?_)
  · intro hlast
    rw [List.getLast?_append, hlast, Option.some_or]
  · intro hfirst
    rw [List.head?_append, hfirst, Option.some_or]

/-- Names are looked for at each place of the text. -/
theorem unglued_iff : Unglued field text ↔ ∀ name ∈ field.aliases, ∀ i < text.length,
    (text.drop i).take name.letters.length = name.letters →
      ((text.take i).getLast?.toList ++ (text.drop (i + name.letters.length)).head?.toList).all
        (fun c => !c.isDigit && decide (field.Separates c)) = true := by
  simp only [List.all_eq_true, Bool.and_eq_true, Bool.not_eq_true', decide_eq_true_eq,
    List.mem_append, Option.mem_toList]
  constructor
  · intro h name hname i _ hletters
    refine h name hname (text.take i) (text.drop (i + name.letters.length)) ?_
    rw [← hletters, ← List.drop_drop, hletters, List.append_assoc]
    nth_rewrite 1 [← hletters]
    rw [List.take_append_drop, List.take_append_drop]
  · rintro h name hname left right rfl
    have hlength : left.length < (left ++ name.letters ++ right).length := by
      have hletter : name.letters.length = 3 := rfl
      simp only [List.length_append]
      omega
    have hplace := h name hname left.length hlength (by simp)
    simpa [List.append_assoc] using hplace

instance (field : Field) (text : List Char) : Decidable (Unglued field text) :=
  decidable_of_iff _ unglued_iff.symm

/-- Where no name is glued to anything, a blend is one value. -/
theorem isWhole_of_isBlend (before after : List Char) (h : field.IsBlend text)
    (hwhole : whole = before ++ text ++ after) (halone : Unglued field whole) :
    field.IsWhole text := by
  rcases h.2.digits_or_name with hdigits | ⟨digits, name, rest, hname, rfl, hdigits, hrest⟩
  · exact .inl ⟨h.1, hdigits⟩
  · have hapart := halone name hname (before ++ digits) (rest ++ after) (by simp [hwhole])
    have hnone : digits = [] := by
      rcases List.eq_nil_or_concat digits with hnil | ⟨front, d, rfl⟩
      · exact hnil
      · have hdigit := hdigits d (by simp)
        rw [(hapart d (.inl (by simp))).1] at hdigit
        cases hdigit
    have hend : rest = [] := by
      cases rest with
      | nil => rfl
      | cons d rest =>
        obtain ⟨hnodigit, hseparates⟩ := hapart d (.inr rfl)
        rcases hrest.head with hdigit | ⟨other, hother, hletter⟩
        · rw [hnodigit] at hdigit
          cases hdigit
        · exact absurd hletter (hseparates other hother)
    subst hnone hend
    exact .inr ⟨name, hname, by simp⟩

/-- Where all names stand alone, a step or a count is a number. -/
theorem isNumeral_of_isBlend (before after : List Char) (h : field.IsBlend text)
    (hwhole : whole = before ++ text ++ after) (hcount : '/' ∈ before ∨ '#' ∈ before)
    (halone : StandAlone field whole) : IsNumeral text := by
  rcases h.2.digits_or_name with hdigits | ⟨digits, name, rest, hname, rfl, -⟩
  · exact ⟨h.1, hdigits⟩
  · have hapart := (halone name hname (before ++ digits) (rest ++ after)
      (by simp [hwhole])).noCount
    rcases hcount with hslash | hhash
    · exact absurd (List.mem_append_left _ hslash) hapart.1
    · exact absurd (List.mem_append_left _ hhash) hapart.2

/-- What holds of each value and each count in its place may be said of them. -/
theorem Written.refine {value value' count count' : List Char → Prop}
    (h : Written field value count text)
    (hvalue : ∀ before part after, text = before ++ part ++ after → value part → value' part)
    (hcount : ∀ before part after, text = before ++ part ++ after → '/' ∈ before ∨ '#' ∈ before →
      count part → count' part) : Written field value' count' text := by
  cases h with
  | @values span tail hspan htail =>
    refine .values ?_ ?_
    · cases hspan with
      | single h => exact .single (hvalue [] _ tail (by simp) h)
      | @range first last hfirst hlast =>
        exact .range (hvalue [] first ('-' :: last ++ tail) (by simp) hfirst)
          (hvalue (first ++ ['-']) last tail (by simp) hlast)
    · cases htail with
      | none => exact .none
      | step h => exact .step (hcount (span ++ ['/']) _ [] (by simp) (by simp) h)
      | last hfield => exact .last hfield
      | numberedLast hfield => exact .numberedLast hfield
      | nth hfield h => exact .nth hfield (hcount (span ++ ['#']) _ [] (by simp) (by simp) h)
  | star h => exact .star (hcount ['*', '/'] _ [] (by simp) (by simp) h)

theorem written_of_standAlone (h : Written field field.IsBlend field.IsBlend text)
    (halone : StandAlone field text) : Written field field.IsWhole IsNumeral text := by
  refine h.refine ?_ ?_
  · intro before part after heq hpart
    exact isWhole_of_isBlend before after hpart heq halone.unglued
  · intro before part after heq hcount hpart
    exact isNumeral_of_isBlend before after hpart heq hcount halone

/-- Where no name is glued to anything, all values, steps and counts are whole. -/
theorem written_of_unglued (h : Written field field.IsBlend field.IsBlend text)
    (halone : Unglued field text) : Written field field.IsWhole field.IsWhole text := by
  refine h.refine ?_ ?_
  · intro before part after heq hpart
    exact isWhole_of_isBlend before after hpart heq halone
  · intro before part after heq _ hpart
    exact isWhole_of_isBlend before after hpart heq halone

/-- What stands in a text with a separator that it does not hold stands on one of its sides. -/
theorem occurs_append_cons {letters first last : List Char} (hc : c ∉ letters)
    (h : first ++ c :: last = left ++ letters ++ right) :
    (∃ middle, first = left ++ letters ++ middle ∧ right = middle ++ c :: last) ∨
      ∃ middle, left = first ++ c :: middle ∧ last = middle ++ letters ++ right := by
  rcases List.append_eq_append_iff.mp h with ⟨middle, hleft, hlast⟩ | ⟨middle, hfirst, hright⟩
  · cases middle with
    | nil => exact .inl ⟨[], by simp [hleft], hlast.symm⟩
    | cons d middle =>
      obtain ⟨rfl, rfl⟩ := List.cons.inj hlast
      -- the separator is none of the letters, so it comes before them
      rcases List.append_eq_append_iff.mp hleft with ⟨inner, -, hinner⟩ | ⟨inner, hinner, hrest⟩
      · exact absurd (hinner ▸ List.mem_append_right _ List.mem_cons_self) hc
      · cases inner with
        | nil =>
          rw [List.nil_append] at hrest
          exact absurd (hrest ▸ List.mem_cons_self) hc
        | cons d inner =>
          obtain ⟨rfl, rfl⟩ := List.cons.inj hrest
          exact .inr ⟨inner, hinner, rfl⟩
  · exact .inl ⟨middle, hfirst, hright⟩

/-- A name in a single value is that value. -/
theorem eq_nil_of_isWhole (hname : name ∈ field.aliases)
    (h : field.IsWhole (left ++ name.letters ++ right)) : left = [] ∧ right = [] := by
  rcases h with ⟨-, hdigits⟩ | ⟨other, -, heq⟩
  · have hdigit := hdigits name.first (by simp [Alias.letters])
    rw [field.isDigit_of_mem_letters name hname _ List.mem_cons_self] at hdigit
    cases hdigit
  · have hlength := congrArg List.length heq
    rw [List.length_append, List.length_append] at hlength
    have hthree : name.letters.length = other.letters.length := rfl
    exact ⟨List.eq_nil_of_length_eq_zero (by omega), List.eq_nil_of_length_eq_zero (by omega)⟩

theorem not_occurs_in_numeral (hname : name ∈ field.aliases) :
    ¬ IsNumeral (left ++ name.letters ++ right) := by
  rintro ⟨-, hdigits⟩
  have hdigit := hdigits name.first (by simp [Alias.letters])
  rw [field.isDigit_of_mem_letters name hname _ List.mem_cons_self] at hdigit
  cases hdigit

theorem not_mem_of_isWhole (h : field.IsWhole text) (hdigit : c.isDigit = false)
    (hc : field.Separates c) : c ∉ text := by
  intro hmem
  rcases h with ⟨-, hdigits⟩ | ⟨name, hname, rfl⟩
  · rw [hdigits c hmem] at hdigit
    cases hdigit
  · exact hc name hname hmem

/-- A name among whole values stands alone there. -/
theorem apart_of_spanText (hname : name ∈ field.aliases)
    (h : SpanText field.IsWhole (left ++ name.letters ++ right)) : Apart field left right := by
  generalize hspan : left ++ name.letters ++ right = span at h
  cases h with
  | single h =>
    obtain ⟨rfl, rfl⟩ := eq_nil_of_isWhole hname (hspan ▸ h)
    exact ⟨by simp, by simp⟩
  | @range first last hfirst hlast =>
    have hdash : '-'.isDigit = false ∧ field.Separates '-' := ⟨by decide, field.separates_dash⟩
    rcases occurs_append_cons (hdash.2 name hname) hspan.symm with
      ⟨middle, rfl, rfl⟩ | ⟨middle, rfl, rfl⟩
    · obtain ⟨rfl, rfl⟩ := eq_nil_of_isWhole hname hfirst
      refine ⟨?_, by simp⟩
      rintro c (hnone | hc)
      · cases hnone
      · obtain rfl := Option.some.inj hc
        exact hdash
    · obtain ⟨rfl, rfl⟩ := eq_nil_of_isWhole hname hlast
      refine ⟨?_, ?_⟩
      · rintro c (hc | hnone)
        · rw [List.getLast?_append, List.getLast?_singleton] at hc
          obtain rfl := Option.some.inj hc
          exact hdash
        · cases hnone
      · have hslash := not_mem_of_isWhole hfirst (by decide) field.separates_slash
        have hhash := not_mem_of_isWhole hfirst (by decide) field.separates_hash
        simp [hslash, hhash]

/-- What follows whole values is nothing, or starts with a separator and holds no name. -/
theorem tailText_cases (h : TailText field IsNumeral tail) :
    tail = [] ∨ ∃ c rest, tail = c :: rest ∧ c.isDigit = false ∧ field.Separates c ∧
      ∀ name ∈ field.aliases, ¬ name.letters <:+: rest := by
  have hnumeral : ∀ text, IsNumeral text → ∀ name ∈ field.aliases, ¬ name.letters <:+: text := by
    rintro text h name hname ⟨left, right, rfl⟩
    exact not_occurs_in_numeral hname h
  cases h with
  | none => exact .inl rfl
  | step h => exact .inr ⟨'/', _, rfl, by decide, field.separates_slash, hnumeral _ h⟩
  | last hfield =>
    subst hfield
    exact .inr ⟨'L', [], rfl, by decide, by decide, fun name _ hin => by
      simpa [Alias.letters] using hin.length_le⟩
  | numberedLast hfield =>
    subst hfield
    exact .inr ⟨'#', ['L'], rfl, by decide, by decide, fun name _ hin => by
      simpa [Alias.letters] using hin.length_le⟩
  | nth hfield h => exact .inr ⟨'#', _, rfl, by decide, field.separates_hash, hnumeral _ h⟩

theorem standAlone_of_written (h : Written field field.IsWhole IsNumeral text) :
    StandAlone field text := by
  intro name hname left right heq
  cases h with
  | @values span tail hspan htail =>
    rcases tailText_cases htail with rfl | ⟨c, rest, rfl, hdigit, hc, hrest⟩
    · rw [List.append_nil] at heq
      exact apart_of_spanText hname (heq ▸ hspan)
    · rcases occurs_append_cons (hc name hname) heq with ⟨middle, rfl, rfl⟩ | ⟨middle, -, rfl⟩
      · have hapart := apart_of_spanText hname hspan
        refine ⟨?_, hapart.noCount⟩
        rintro d (hd | hd)
        · exact hapart.separated d (.inl hd)
        · cases middle with
          | nil =>
            obtain rfl := Option.some.inj hd
            exact ⟨hdigit, hc⟩
          | cons e middle => exact hapart.separated d (.inr hd)
      · exact absurd ⟨middle, right, rfl⟩ (hrest name hname)
  | @star step h =>
    rcases occurs_append_cons (field.separates_slash name hname)
      (show ['*'] ++ '/' :: step = _ from heq) with ⟨middle, hstar, -⟩ | ⟨middle, -, rfl⟩
    · have hlength := congrArg List.length hstar
      simp [Alias.letters] at hlength
      omega
    · exact absurd h (not_occurs_in_numeral hname)

/-- An element of blends is one of whole values when its names stand alone. -/
theorem written_iff_standAlone (h : Written field field.IsBlend field.IsBlend text) :
    Written field field.IsWhole IsNumeral text ↔ StandAlone field text :=
  ⟨standAlone_of_written, written_of_standAlone h⟩

end StandAlone

/-! ## Accepted expressions -/

/-- The elements of an accepted token that hold a name are written with blends. -/
theorem written_of_parse {field : Field} {token element : List Char} {table : MarkTable}
    (h : MarkTable.parse field token = .ok table) (helement : element ∈ (upper token).splitOn ',')
    {name : Alias} (hname : name ∈ field.aliases) (hin : name.letters <:+: element) :
    Written field field.IsBlend field.IsBlend element := by
  have hallows := (MarkTable.parse_eq_ok_iff.mp h).1
  have hlong : 3 ≤ element.length := hin.length_le
  have htoken : field.normalize token = field.replaceAliases (upper token) := by
    refine if_neg ?_
    rintro ⟨-, rfl⟩
    obtain rfl := List.mem_singleton.mp helement
    exact absurd hlong (by decide)
  have hresolved : field.resolve element ∈ (field.normalize token).splitOn ',' := by
    rw [htoken, Field.splitOn_replaceAliases]
    exact List.mem_map_of_mem helement
  have hchars : ∀ c ∈ field.resolve element, field.allows c = true := fun c hc =>
    hallows c (mem_of_mem_splitOn hresolved hc)
  have hmonth : field ≠ .dayOfMonth := by
    rintro rfl
    cases hname
  rcases (MarkTable.adds_of_parse h).1 with hstar | hdenotes
  · rw [hstar] at hresolved
    rw [Field.eq_star_of_resolve (List.mem_singleton.mp hresolved)] at hlong
    exact absurd hlong (by decide)
  · obtain ⟨denoted, hdenotes⟩ := hdenotes _ hresolved
    exact written_of_denotes hmonth hchars hdenotes

namespace Schedule

/-- **What a name stands for.**  In an accepted expression every element that holds a name is
written with digits and names, one after the other, in the place of each value, step and
count.  Its values are numbers or whole names, and its steps and counts numbers, exactly
when each of its names stands alone. -/
theorem element_with_name_written {options : ParseOptions} {expression : String}
    {schedule : Schedule} (hparse : parseWith options expression = .ok schedule) {field : Field}
    {token : String} (htoken : (field, token) ∈ schedule.pattern.fieldTokens)
    {element : List Char} (helement : element ∈ (upper token.toList).splitOn ',')
    (hname : ∃ name ∈ field.aliases, name.letters <:+: element) :
    Written field field.IsBlend field.IsBlend element ∧
      (Written field field.IsWhole IsNumeral element ↔ StandAlone field element) := by
  obtain ⟨pattern, hpattern, rfl⟩ := map_eq_ok_iff.mp hparse
  obtain ⟨table, htable, -⟩ := (Pattern.exists_parse_of_parse hpattern).1 field token htoken
  obtain ⟨name, hname, hin⟩ := hname
  have hwritten := written_of_parse htable helement hname hin
  exact ⟨hwritten, written_iff_standAlone hwritten⟩

/-- A range of months that starts with two names in a row and is stepped by another one. -/
theorem element_with_name_written_in_a_row :
    ∃ schedule, parseWith {} "0 0 * oct,janfeb-dec/mar *" = .ok schedule ∧
      (Field.month, "oct,janfeb-dec/mar") ∈ schedule.pattern.fieldTokens ∧
      Written .month (Field.IsBlend .month) (Field.IsBlend .month) "JANFEB-DEC/MAR".toList ∧
      ¬ Written .month (Field.IsWhole .month) IsNumeral "JANFEB-DEC/MAR".toList := by
  obtain ⟨schedule, hparse, htokens⟩ := map_eq_ok_iff.mp
    (show (parseWith {} "0 0 * oct,janfeb-dec/mar *").map (fun schedule =>
        schedule.pattern.fieldTokens) =
      .ok [(.minute, "0"), (.hour, "0"), (.dayOfMonth, "*"), (.month, "oct,janfeb-dec/mar"),
        (.dayOfWeek, "*")] by decide +kernel)
  have htoken : (Field.month, "oct,janfeb-dec/mar") ∈ schedule.pattern.fieldTokens := by
    rw [htokens]
    simp
  have hname : ⟨'J', 'A', 'N', 1⟩ ∈ Field.month.aliases := List.mem_cons_self
  obtain ⟨hwritten, hexact⟩ := element_with_name_written hparse htoken
    (show "JANFEB-DEC/MAR".toList ∈ _ by decide) ⟨_, hname, [], "FEB-DEC/MAR".toList, by decide⟩
  refine ⟨schedule, hparse, htoken, hwritten, fun hwhole => ?_⟩
  have hapart := hexact.mp hwhole _ hname [] "FEB-DEC/MAR".toList (by decide)
  exact absurd (hapart.separated 'F' (.inr (by decide))).2 (by decide)

/-- Two names of months in a row are accepted, as the number that their digits make. -/
theorem accepts_names_in_a_row :
    isValid "0 0 * JANFEB *" = true ∧ isValid "0 0 * JANUARY *" = false ∧
      MarkTable.parse .month "JANFEB".toList = MarkTable.parse .month "DEC".toList ∧
      ¬ Written .month (Field.IsWhole .month) IsNumeral "JANFEB".toList := by
  refine ⟨by decide, by decide, by decide, fun hwhole => ?_⟩
  have hapart := standAlone_of_written hwhole ⟨'J', 'A', 'N', 1⟩ List.mem_cons_self []
    ['F', 'E', 'B'] (by decide)
  exact absurd (hapart.separated 'F' (.inr rfl)).2 (by decide)

end Schedule
end CronSchedule
