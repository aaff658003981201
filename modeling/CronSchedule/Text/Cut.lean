/-! # Cutting text

Small operations on a text as a list of characters: cutting it at the first separator, and
capital letters.
-/
namespace CronSchedule.Text

variable {mark c : Char} {text left right : List Char}

/-- The text before and after the first `mark`, if it holds one. -/
def cutAt? (mark : Char) : List Char → Option (List Char × List Char)
  | [] => none
  | c :: text =>
    if c = mark then some ([], text)
    else (cutAt? mark text).map fun sides => (c :: sides.1, sides.2)

/-- The text with the letters `a` to `z` made capitals. -/
def upper (text : List Char) : List Char := text.map Char.toUpper

@[simp] theorem cutAt?_nil : cutAt? mark [] = none := rfl

/-- A cut names the two sides of the first separator. -/
theorem cutAt?_eq_some_iff :
    cutAt? mark text = some (left, right) ↔ text = left ++ mark :: right ∧ mark ∉ left := by
  induction text generalizing left with
  | nil => simp
  | cons c text ih =>
    by_cases hc : c = mark
    · subst hc
      cases left with
      | nil => simp [cutAt?, eq_comm]
      | cons a left => simp +contextual [cutAt?]
    · cases left with
      | nil => simp [cutAt?, hc]
      | cons a left =>
        simp only [cutAt?, hc, if_false, Option.map_eq_some_iff, Prod.exists, Prod.mk.injEq,
          List.cons.injEq, List.cons_append, List.mem_cons, not_or]
        constructor
        · rintro ⟨l, r, h, ⟨rfl, rfl⟩, rfl⟩
          obtain ⟨rfl, hn⟩ := ih.1 h
          exact ⟨⟨rfl, rfl⟩, fun e => hc e.symm, hn⟩
        · rintro ⟨⟨rfl, rfl⟩, _, hn⟩
          exact ⟨left, right, ih.2 ⟨rfl, hn⟩, ⟨rfl, rfl⟩, rfl⟩

/-- A text without the separator has no cut. -/
theorem cutAt?_eq_none_iff : cutAt? mark text = none ↔ mark ∉ text := by
  induction text with
  | nil => simp
  | cons c text ih =>
    by_cases hc : c = mark
    · simp [cutAt?, hc]
    · simp [cutAt?, hc, ih, Ne.symm hc]

/-- A text is cut at its first separator in one way. -/
theorem append_cons_inj {left' right' : List Char} (hleft : mark ∉ left) (hleft' : mark ∉ left')
    (h : left ++ mark :: right = left' ++ mark :: right') : left = left' ∧ right = right' := by
  have hcut : cutAt? mark (left ++ mark :: right) = some (left, right) :=
    cutAt?_eq_some_iff.mpr ⟨rfl, hleft⟩
  rw [cutAt?_eq_some_iff.mpr ⟨h, hleft'⟩, Option.some.injEq, Prod.mk.injEq] at hcut
  exact ⟨hcut.1.symm, hcut.2.symm⟩

end CronSchedule.Text
