import CronSchedule.Schedule.Parsing

/-! # Expressions in free text

A candidate is a run of five or six plain forms with blanks between them; a plain form is
a number, a star or a star with a step.  Candidates are looked for from left to right, and
the next one after the end of the last.  Up to the fourth form a candidate takes each form
whole; of the fifth and sixth it takes a number or a star and stops, so a step written
after such a star stays outside.  `extractExpression?` answers the first candidate that is
a valid expression.
-/
namespace CronSchedule

namespace Text

/-- The longest run at the head of a text whose characters have a property, unless it is
empty, and what follows it. -/
def run? (p : Char → Bool) (text : List Char) : Option (List Char × List Char) :=
  if text.takeWhile p = [] then none else some (text.takeWhile p, text.dropWhile p)

theorem run?_eq_some {p : Char → Bool} {text taken rest : List Char}
    (h : run? p text = some (taken, rest)) : taken ≠ [] ∧ taken ++ rest = text := by
  unfold run? at h
  split at h
  · cases h
  · cases h
    exact ⟨‹_›, List.takeWhile_append_dropWhile⟩

end Text

namespace FreeText

open Text

/-- A number or a star at the head of a text. -/
def shortForm? : List Char → Option (List Char × List Char)
  | '*' :: rest => some (['*'], rest)
  | text => run? Char.isDigit text

/-- A number, a star or a star with a step at the head of a text. -/
def wholeForm? : List Char → Option (List Char × List Char)
  | '*' :: '/' :: rest =>
    (run? Char.isDigit rest).map fun step => ('*' :: '/' :: step.1, step.2)
  | text => shortForm? text

/-- A whole form and the blanks after it. -/
def formAndGap? (text : List Char) : Option (List Char × List Char) := do
  let (form, rest) ← wholeForm? text
  let (gap, rest) ← run? isBlank rest
  return (form ++ gap, rest)

/-- A number of whole forms, each with the blanks after it. -/
def formsAndGaps? : Nat → List Char → Option (List Char × List Char)
  | 0, text => some ([], text)
  | count + 1, text => do
    let (form, rest) ← formAndGap? text
    let (forms, rest) ← formsAndGaps? count rest
    return (form ++ forms, rest)

/-- Blanks and the number or star after them. -/
def gapAndForm? (text : List Char) : Option (List Char × List Char) := do
  let (gap, rest) ← run? isBlank text
  let (form, rest) ← shortForm? rest
  return (gap ++ form, rest)

/-- The candidate at the head of a text, and what follows it. -/
def atHead? (text : List Char) : Option (List Char × List Char) := do
  let (forms, rest) ← formsAndGaps? 4 text
  let (fifth, rest) ← shortForm? rest
  match gapAndForm? rest with
  | some (sixth, rest) => return (forms ++ fifth ++ sixth, rest)
  | none => return (forms ++ fifth, rest)

variable {text taken rest : List Char}

theorem shortForm?_eq_some (h : shortForm? text = some (taken, rest)) :
    taken ≠ [] ∧ taken ++ rest = text := by
  unfold shortForm? at h
  split at h
  · cases h
    simp
  · exact run?_eq_some h

theorem wholeForm?_eq_some (h : wholeForm? text = some (taken, rest)) :
    taken ≠ [] ∧ taken ++ rest = text := by
  unfold wholeForm? at h
  split at h
  · obtain ⟨⟨step, after⟩, hs, he⟩ := Option.map_eq_some_iff.mp h
    cases he
    simp [(run?_eq_some hs).2]
  · exact shortForm?_eq_some h

theorem formAndGap?_eq_some (h : formAndGap? text = some (taken, rest)) :
    taken ≠ [] ∧ taken ++ rest = text := by
  simp only [formAndGap?, Option.bind_eq_bind, Option.bind_eq_some_iff, Prod.exists] at h
  obtain ⟨form, afterForm, hform, gap, afterGap, hgap, he⟩ := h
  cases he
  have h1 := wholeForm?_eq_some hform
  have h2 := run?_eq_some hgap
  exact ⟨by simp [h1.1], by rw [List.append_assoc, h2.2, h1.2]⟩

theorem formsAndGaps?_eq_some {count : Nat} (h : formsAndGaps? count text = some (taken, rest)) :
    taken ++ rest = text := by
  induction count generalizing text taken with
  | zero => cases h; rfl
  | succ count ih =>
    simp only [formsAndGaps?, Option.bind_eq_bind, Option.bind_eq_some_iff, Prod.exists] at h
    obtain ⟨form, afterForm, hform, forms, after, hforms, he⟩ := h
    cases he
    rw [List.append_assoc, ih hforms, (formAndGap?_eq_some hform).2]

theorem gapAndForm?_eq_some (h : gapAndForm? text = some (taken, rest)) :
    taken ++ rest = text := by
  simp only [gapAndForm?, Option.bind_eq_bind, Option.bind_eq_some_iff, Prod.exists] at h
  obtain ⟨gap, afterGap, hgap, form, afterForm, hform, he⟩ := h
  cases he
  rw [List.append_assoc, (shortForm?_eq_some hform).2, (run?_eq_some hgap).2]

/-- A candidate is what the text starts with, and is not empty. -/
theorem atHead?_eq_some (h : atHead? text = some (taken, rest)) :
    taken ≠ [] ∧ taken ++ rest = text := by
  simp only [atHead?, Option.bind_eq_bind, Option.bind_eq_some_iff, Prod.exists] at h
  obtain ⟨forms, afterForms, hforms, fifth, afterFifth, hfifth, h⟩ := h
  have h1 := formsAndGaps?_eq_some hforms
  have h2 := shortForm?_eq_some hfifth
  split at h
  · rename_i sixth after hsixth
    cases h
    exact ⟨by simp [h2.1], by
      rw [List.append_assoc, List.append_assoc, gapAndForm?_eq_some hsixth, h2.2, h1]⟩
  · cases h
    exact ⟨by simp [h2.1], by rw [List.append_assoc, h2.2, h1]⟩

theorem length_lt_of_atHead? (h : atHead? text = some (taken, rest)) :
    rest.length < text.length := by
  obtain ⟨hne, rfl⟩ := atHead?_eq_some h
  have := List.length_pos_iff.mpr hne
  rw [List.length_append]
  omega

/-- The candidates of a text, from left to right. -/
def candidates (text : List Char) : List (List Char) :=
  match h : atHead? text with
  | some (taken, rest) =>
    have := length_lt_of_atHead? h
    taken :: candidates rest
  | none =>
    -- no candidate starts here
    match text with
    | [] => []
    | _ :: rest => candidates rest
termination_by text.length

end FreeText

/-- The first candidate of a text that is a valid expression. -/
def extractExpression? (text : String) : Option String :=
  ((FreeText.candidates text.toList).map String.ofList).find? Schedule.isValid

end CronSchedule
