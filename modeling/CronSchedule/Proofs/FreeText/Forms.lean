import CronSchedule.FreeText
import CronSchedule.Proofs.Schedule.NamePlaces
import CronSchedule.Proofs.Text.Words
import Mathlib.Data.List.TakeWhile

/-! # Plain forms in free text

A plain form is a number, a star or a star with a step (`IsForm`).  A form that blanks follow is
read whole (`wholeForm?_append`), and at the end of a candidate only what stands before its step
is (`shortForm?_append`).

Every form is a word of its own kind, one that holds a digit or a star.  A candidate takes five
of them, so a text with fewer has none (`candidates_eq_nil`), and what holds neither digit nor
star may stand in front of a text without changing its candidates (`candidates_append`).
-/
namespace CronSchedule

open Text

theorem Text.run?_eq_some_iff {p : Char → Bool} {text taken rest : List Char} :
    run? p text = some (taken, rest) ↔ taken ≠ [] ∧ (∀ c ∈ taken, p c = true) ∧
      (∀ c, rest.head? = some c → p c = false) ∧ taken ++ rest = text := by
  constructor
  · intro h
    obtain ⟨hne, happend⟩ := run?_eq_some h
    have hparts : text.takeWhile p = taken ∧ text.dropWhile p = rest := by
      unfold run? at h
      split at h
      · cases h
      · exact Prod.mk.inj (Option.some.inj h)
    obtain ⟨rfl, rfl⟩ := hparts
    refine ⟨hne, List.all_eq_true.mp List.all_takeWhile, ?_, happend⟩
    intro c hc
    have hhead := List.head?_dropWhile_not p text
    rwa [hc] at hhead
  · rintro ⟨hne, htaken, hrest, rfl⟩
    have hstop : rest.takeWhile p = [] ∧ rest.dropWhile p = rest := by
      cases rest with
      | nil => exact ⟨rfl, rfl⟩
      | cons c rest =>
        have hc := hrest c rfl
        exact ⟨List.takeWhile_cons_of_neg (by simp [hc]), List.dropWhile_cons_of_neg (by simp [hc])⟩
    rw [run?, List.takeWhile_append_of_pos htaken, List.dropWhile_append_of_pos htaken, hstop.1,
      hstop.2, List.append_nil, if_neg hne]

namespace FreeText

/-- Whether a text is a number, a star or a star with a step. -/
inductive IsForm : List Char → Prop
  | number {digits : List Char} (h : IsNumeral digits) : IsForm digits
  | star : IsForm ['*']
  | step {digits : List Char} (h : IsNumeral digits) : IsForm ('*' :: '/' :: digits)

/-- Whether a form may start with a character. -/
def opensForm (c : Char) : Bool := c.isDigit || c == '*'

/-- The text before the first step in it. -/
def beforeStep (text : List Char) : List Char := text.takeWhile (· != '/')

/-- The first step in a text, and all that follows. -/
def fromStep (text : List Char) : List Char := text.dropWhile (· != '/')

variable {form gap text taken rest before after : List Char} {pieces : List (List Char)} {c : Char}
  {count : Nat}

theorem opensForm_of_isDigit (h : c.isDigit = true) : opensForm c = true := by
  rw [opensForm, h, Bool.true_or]

theorem forall_not_opensForm_iff :
    text.any opensForm = false ↔ ∀ c ∈ text, opensForm c = false := by
  rw [List.any_eq_false]
  simp only [Bool.not_eq_true]

theorem IsForm.opens_head (h : IsForm (c :: form)) : opensForm c = true := by
  cases h with
  | number h => exact opensForm_of_isDigit (h.2 c List.mem_cons_self)
  | star => rfl
  | step _ => rfl

theorem IsForm.isWord (h : IsForm form) : IsWord form := by
  cases h with
  | number h => exact ⟨h.1, fun c hc => isBlank_of_isDigit (h.2 c hc)⟩
  | star => exact ⟨List.cons_ne_nil _ _, List.forall_mem_singleton.mpr rfl⟩
  | step h =>
    refine ⟨List.cons_ne_nil _ _, ?_⟩
    rintro c (_ | ⟨_, _ | ⟨_, hc⟩⟩)
    · rfl
    · rfl
    · exact isBlank_of_isDigit (h.2 c hc)

theorem IsForm.any_opensForm (h : IsForm form) : form.any opensForm = true := by
  obtain ⟨c, form, rfl⟩ := List.exists_cons_of_ne_nil h.isWord.1
  rw [List.any_cons, h.opens_head, Bool.true_or]

/-! ## Steps -/

theorem beforeStep_append (h : '/' ∉ form) : beforeStep (form ++ text) = form ++ beforeStep text :=
  List.takeWhile_append_of_pos fun _ hc => bne_iff_ne.mpr fun heq => h (heq ▸ hc)

theorem fromStep_append (h : '/' ∉ form) : fromStep (form ++ text) = fromStep text :=
  List.dropWhile_append_of_pos fun _ hc => bne_iff_ne.mpr fun heq => h (heq ▸ hc)

theorem beforeStep_eq_self_iff : beforeStep text = text ↔ '/' ∉ text := by
  rw [beforeStep, List.takeWhile_eq_self_iff]
  constructor
  · intro h hmem
    exact absurd (h '/' hmem) (by decide)
  · intro h c hc
    exact bne_iff_ne.mpr fun heq => h (heq ▸ hc)

theorem fromStep_of_not_mem (h : '/' ∉ form) : fromStep form = [] := by
  rw [← List.append_nil form, fromStep_append h]
  rfl

theorem beforeStep_append_fromStep (text : List Char) : beforeStep text ++ fromStep text = text :=
  List.takeWhile_append_dropWhile

/-- A form is one without a step, or a star with one. -/
theorem IsForm.slash_not_mem_or (h : IsForm form) :
    '/' ∉ form ∨ ∃ step, form = '*' :: '/' :: step := by
  cases h with
  | number h => exact .inl fun hmem => absurd (h.2 '/' hmem) (by decide)
  | star => exact .inl (by decide)
  | step _ => exact .inr ⟨_, rfl⟩

/-! ## Reading one form -/

theorem run?_digits (h : IsNumeral form) (hend : ∀ c, rest.head? = some c → c.isDigit = false) :
    run? Char.isDigit (form ++ rest) = some (form, rest) :=
  run?_eq_some_iff.mpr ⟨h.1, h.2, hend, rfl⟩

/-- Digits are read as a number. -/
theorem shortForm?_digits (h : IsNumeral form)
    (hend : ∀ c, rest.head? = some c → c.isDigit = false) :
    shortForm? (form ++ rest) = some (form, rest) := by
  have hrun := run?_digits h hend
  unfold shortForm?
  split
  · rename_i heq
    obtain ⟨c, form, rfl⟩ := List.exists_cons_of_ne_nil h.1
    obtain ⟨rfl, -⟩ := List.cons.inj heq
    exact absurd (h.2 '*' List.mem_cons_self) (by decide)
  · exact hrun

/-- Of a form at the end of a candidate, what stands before its step is read. -/
theorem shortForm?_append (h : IsForm form)
    (hend : ∀ c, rest.head? = some c → c.isDigit = false) :
    shortForm? (form ++ rest) = some (beforeStep form, fromStep form ++ rest) := by
  cases h with
  | number h =>
    have hslash : '/' ∉ form := fun hmem => absurd (h.2 '/' hmem) (by decide)
    rw [shortForm?_digits h hend, beforeStep_eq_self_iff.mpr hslash, fromStep_of_not_mem hslash,
      List.nil_append]
  | star => rfl
  | step _ => rfl

/-- A form is read whole where a blank follows. -/
theorem wholeForm?_append (h : IsForm form)
    (hend : ∀ c, rest.head? = some c → isBlank c = true) :
    wholeForm? (form ++ rest) = some (form, rest) := by
  have hdigit : ∀ c, rest.head? = some c → c.isDigit = false := fun c hc =>
    isDigit_of_isBlank (hend c hc)
  cases h with
  | number h =>
    have hshort := shortForm?_digits h hdigit
    unfold wholeForm?
    split
    · rename_i heq
      obtain ⟨c, form, rfl⟩ := List.exists_cons_of_ne_nil h.1
      obtain ⟨rfl, -⟩ := List.cons.inj heq
      exact absurd (h.2 '*' List.mem_cons_self) (by decide)
    · exact hshort
  | star =>
    cases rest with
    | nil => rfl
    | cons c rest =>
      have hc := hend c rfl
      rw [List.singleton_append]
      unfold wholeForm?
      split
      · rename_i heq
        obtain ⟨-, heq⟩ := List.cons.inj heq
        obtain ⟨rfl, -⟩ := List.cons.inj heq
        exact absurd hc (by decide)
      · rfl
  | @step digits h =>
    rw [List.cons_append, List.cons_append, wholeForm?, run?_digits h hdigit, Option.map_some]

theorem isForm_of_shortForm? (h : shortForm? text = some (taken, rest)) : IsForm taken := by
  unfold shortForm? at h
  split at h
  · cases h
    exact .star
  · obtain ⟨hne, hdigits, -⟩ := run?_eq_some_iff.mp h
    exact .number ⟨hne, hdigits⟩

theorem isForm_of_wholeForm? (h : wholeForm? text = some (taken, rest)) : IsForm taken := by
  unfold wholeForm? at h
  split at h
  · obtain ⟨⟨digits, after⟩, hdigits, heq⟩ := Option.map_eq_some_iff.mp h
    obtain ⟨rfl, -⟩ := Prod.mk.inj heq
    obtain ⟨hne, hall, -⟩ := run?_eq_some_iff.mp hdigits
    exact .step ⟨hne, hall⟩
  · exact isForm_of_shortForm? h

theorem isForm_iff : IsForm form ↔ wholeForm? form = some (form, []) := by
  constructor
  · intro h
    have hwhole : wholeForm? (form ++ []) = some (form, []) := wholeForm?_append h nofun
    rwa [List.append_nil] at hwhole
  · exact isForm_of_wholeForm?

instance (form : List Char) : Decidable (IsForm form) := decidable_of_iff _ isForm_iff.symm

/-! ## Reading forms and gaps -/

theorem formAndGap?_append (h : IsForm form) (hgap : IsGap gap)
    (hend : ∀ c, rest.head? = some c → isBlank c = false) :
    formAndGap? (form ++ (gap ++ rest)) = some (form ++ gap, rest) := by
  have hrun : run? isBlank (gap ++ rest) = some (gap, rest) :=
    run?_eq_some_iff.mpr ⟨hgap.1, hgap.2, hend, rfl⟩
  have hform : wholeForm? (form ++ (gap ++ rest)) = some (form, gap ++ rest) :=
    wholeForm?_append h fun _ hc => hgap.isBlank_head hc
  simp [formAndGap?, hform, hrun]

theorem exists_form_of_formAndGap? (h : formAndGap? text = some (taken, rest)) :
    ∃ form gap, IsForm form ∧ IsGap gap ∧ taken = form ++ gap ∧ form ++ (gap ++ rest) = text := by
  simp only [formAndGap?, Option.bind_eq_bind, Option.bind_eq_some_iff, Prod.exists] at h
  obtain ⟨form, middle, hform, gap, afterGap, hgap, heq⟩ := h
  cases heq
  obtain ⟨hne, hblank, -, hmiddle⟩ := run?_eq_some_iff.mp hgap
  refine ⟨form, gap, isForm_of_wholeForm? hform, ⟨hne, hblank⟩, rfl, ?_⟩
  rw [hmiddle, (wholeForm?_eq_some hform).2]

/-- The first forms of a separated text are read whole, with the gaps after them. -/
theorem formsAndGaps?_append (h : Separated text pieces) (hforms : ∀ piece ∈ pieces, IsForm piece)
    (hcount : count < pieces.length) :
    ∃ front back, text = front ++ back ∧ Separated back (pieces.drop count) ∧
      (∀ rest, words (front ++ rest) = pieces.take count ++ words rest) ∧
      ∀ rest, formsAndGaps? count (text ++ rest) = some (front, back ++ rest) := by
  induction count generalizing text pieces with
  | zero => exact ⟨[], text, rfl, h, fun _ => rfl, fun _ => rfl⟩
  | succ count ih =>
    cases h with
    | last hword => exact absurd hcount (by simp)
    | @cons word gap text pieces hword hgap h =>
      obtain ⟨hform, hforms⟩ := List.forall_mem_cons.mp hforms
      obtain ⟨front, back, rfl, hback, hwords, hreads⟩ :=
        ih h hforms (Nat.lt_of_succ_lt_succ hcount)
      refine ⟨word ++ (gap ++ front), back, by simp, hback, ?_, ?_⟩
      · intro rest
        rw [List.append_assoc, List.append_assoc, words_append_gap hword hgap, hwords]
        rfl
      · intro rest
        have hend : ∀ c, (front ++ back ++ rest).head? = some c → isBlank c = false := by
          intro c hc
          rw [List.head?_append_of_ne_nil _ h.ne_nil] at hc
          exact h.trimmed.1 c hc
        have hfirst := formAndGap?_append hform hgap hend
        rw [List.append_assoc, List.append_assoc, formsAndGaps?, hfirst]
        simp only [Option.bind_eq_bind, Option.bind_some, hreads]
        rw [List.append_assoc]
        rfl

/-! ## Words that hold a digit or a star -/

/-- How many words of a text hold a digit or a star. -/
def formWords (text : List Char) : Nat := (words text).countP (·.any opensForm)

/-- One more character in front makes at most one more word, and none unless a form may start
with it. -/
theorem formWords_cons (c : Char) (text : List Char) :
    formWords text ≤ formWords (c :: text) ∧
      (opensForm c = false → formWords (c :: text) = formWords text) := by
  by_cases hblank : isBlank c = true
  · have hwords : words ([c] ++ text) = words text :=
      words_append_left (List.forall_mem_singleton.mpr hblank)
    rw [List.singleton_append] at hwords
    rw [formWords, formWords, hwords]
    exact ⟨le_rfl, fun _ => rfl⟩
  · rw [Bool.not_eq_true] at hblank
    have hword : IsWord [c] := ⟨List.cons_ne_nil _ _, List.forall_mem_singleton.mpr hblank⟩
    obtain ⟨rest, more, hlonger, htext⟩ := words_isWord_append hword text
    rw [List.singleton_append, List.singleton_append] at hlonger
    have hany : (c :: rest).any opensForm = (opensForm c || rest.any opensForm) := List.any_cons
    rw [formWords, formWords, hlonger, List.countP_cons, hany]
    rcases htext with ⟨rfl, htext⟩ | htext
    · rw [htext]
      exact ⟨Nat.le_add_right _ _, fun hc => by simp [hc]⟩
    · rw [htext, List.countP_cons]
      refine ⟨?_, fun hc => by rw [hc, Bool.false_or]⟩
      cases rest.any opensForm with
      | false => simp
      | true => simp

theorem formWords_le_of_suffix (h : rest <:+ text) : formWords rest ≤ formWords text := by
  obtain ⟨front, rfl⟩ := h
  induction front with
  | nil => exact le_rfl
  | cons c front ih => exact ih.trans (formWords_cons c _).1

theorem formWords_eq_zero (h : ∀ c ∈ text, opensForm c = false) : formWords text = 0 := by
  induction text with
  | nil => rfl
  | cons c text ih =>
    obtain ⟨hc, htext⟩ := List.forall_mem_cons.mp h
    rw [(formWords_cons c text).2 hc, ih htext]

theorem formWords_append_gap (h : IsForm form) (hgap : IsGap gap) :
    formWords (form ++ (gap ++ text)) = formWords text + 1 := by
  rw [formWords, words_append_gap h.isWord hgap, List.countP_cons, if_pos h.any_opensForm]
  rfl

theorem formWords_pos (h : IsForm form) (rest : List Char) : 0 < formWords (form ++ rest) := by
  obtain ⟨tail, more, hwords, -⟩ := words_isWord_append h.isWord rest
  have hany : (form ++ tail).any opensForm = true := by
    rw [List.any_append, h.any_opensForm, Bool.true_or]
  rw [formWords, hwords, List.countP_cons, if_pos hany]
  exact Nat.succ_pos _

/-- What holds no digit and no star adds nothing to the words of a separated text. -/
theorem formWords_append_le (h : Separated text pieces)
    (hafter : ∀ c ∈ after, opensForm c = false) :
    formWords (text ++ after) ≤ pieces.length := by
  induction h with
  | @last word hword =>
    obtain ⟨rest, more, hwords, hmore⟩ := words_isWord_append hword after
    have hzero := formWords_eq_zero hafter
    have hnone : more.countP (·.any opensForm) = 0 := by
      rcases hmore with ⟨-, hmore⟩ | hmore
      · rwa [formWords, hmore] at hzero
      · rw [formWords, hmore, List.countP_cons] at hzero
        omega
    rw [formWords, hwords, List.countP_cons, hnone]
    split
    · exact le_rfl
    · exact Nat.zero_le _
  | @cons word gap text pieces hword hgap h ih =>
    rw [List.append_assoc, List.append_assoc, formWords, words_append_gap hword hgap,
      List.countP_cons, List.length_cons]
    refine Nat.add_le_add ih ?_
    split
    · exact le_rfl
    · exact Nat.zero_le _

/-! ## Texts without candidates -/

theorem formWords_of_formsAndGaps? (h : formsAndGaps? count text = some (taken, rest)) :
    formWords text = formWords rest + count := by
  induction count generalizing text taken with
  | zero =>
    cases h
    rfl
  | succ count ih =>
    simp only [formsAndGaps?, Option.bind_eq_bind, Option.bind_eq_some_iff, Prod.exists] at h
    obtain ⟨first, middle, hfirst, forms, after, hforms, heq⟩ := h
    cases heq
    obtain ⟨form, gap, hform, hgap, -, rfl⟩ := exists_form_of_formAndGap? hfirst
    rw [formWords_append_gap hform hgap, ih hforms, Nat.add_assoc]

/-- A candidate takes five words that hold a digit or a star. -/
theorem five_le_formWords (h : atHead? text = some (taken, rest)) : 5 ≤ formWords text := by
  simp only [atHead?, Option.bind_eq_bind, Option.bind_eq_some_iff, Prod.exists] at h
  obtain ⟨forms, middle, hforms, fifth, last, hfifth, -⟩ := h
  have hpos := formWords_pos (isForm_of_shortForm? hfifth) last
  rw [(shortForm?_eq_some hfifth).2] at hpos
  have hcount := formWords_of_formsAndGaps? hforms
  omega

theorem candidates_nil : candidates [] = [] := by
  rw [candidates]
  rfl

/-- Where no candidate starts, the next one is looked for behind the character. -/
theorem candidates_cons (h : atHead? (c :: text) = none) :
    candidates (c :: text) = candidates text := by
  rw [candidates]
  split
  · rename_i heq
    rw [h] at heq
    cases heq
  · rfl

theorem candidates_of_atHead? (h : atHead? text = some (taken, rest)) :
    candidates text = taken :: candidates rest := by
  rw [candidates]
  split
  · rename_i heq
    rw [h] at heq
    cases heq
    rfl
  · rename_i heq
    rw [h] at heq
    cases heq

/-- A text with fewer than five words that hold a digit or a star has no candidate. -/
theorem candidates_eq_nil (h : formWords text < 5) : candidates text = [] := by
  induction text with
  | nil => exact candidates_nil
  | cons c text ih =>
    have hnone : atHead? (c :: text) = none := by
      refine Option.eq_none_iff_forall_ne_some.mpr ?_
      rintro ⟨taken, rest⟩ hsome
      have hfive := five_le_formWords hsome
      omega
    rw [candidates_cons hnone]
    exact ih ((formWords_cons c text).1.trans_lt h)

/-- A candidate starts with a digit or a star. -/
theorem opensForm_of_atHead? (h : atHead? (c :: text) = some (taken, rest)) :
    opensForm c = true := by
  simp only [atHead?, formsAndGaps?, Option.bind_eq_bind, Option.bind_eq_some_iff,
    Prod.exists] at h
  obtain ⟨forms, middle, ⟨first, more, hfirst, -⟩, -⟩ := h
  obtain ⟨form, gap, hform, -, -, heq⟩ := exists_form_of_formAndGap? hfirst
  obtain ⟨d, form, rfl⟩ := List.exists_cons_of_ne_nil hform.isWord.1
  obtain ⟨rfl, -⟩ := List.cons.inj heq
  exact hform.opens_head

/-- What holds no digit and no star is skipped. -/
theorem candidates_append (h : ∀ c ∈ before, opensForm c = false) :
    candidates (before ++ text) = candidates text := by
  induction before with
  | nil => rfl
  | cons c before ih =>
    obtain ⟨hc, hbefore⟩ := List.forall_mem_cons.mp h
    have hnone : atHead? (c :: (before ++ text)) = none := by
      refine Option.eq_none_iff_forall_ne_some.mpr ?_
      rintro ⟨taken, rest⟩ hsome
      rw [opensForm_of_atHead? hsome] at hc
      cases hc
    rw [List.cons_append, candidates_cons hnone, ih hbefore]

end FreeText
end CronSchedule
