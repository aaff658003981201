import CronSchedule.Proofs.Element.Denotation
import CronSchedule.Proofs.Field.Naming
import CronSchedule.Proofs.Text.Words
import Mathlib.Data.List.Forall2

/-! # Zeros in front of numbers

A text may be rewritten with more zeros in front of its numbers, where a number is a run of
digits with none on either side (`Padded`).  Everything that is no digit stays where it is.
So the rewriting is cut wherever the text is cut (`Padded.cut`), into its words
(`Padded.words`) and into the elements of a list (`Padded.splitOn`), and the number that a run
stands for stays the same (`digits?_zeros`).
-/
namespace CronSchedule.Text

/-- Whether the second text is the first with any number of zeros in front of each number. -/
inductive Padded : List Char → List Char → Prop
  | nil : Padded [] []
  | other {c : Char} {text padded : List Char} (hc : c.isDigit = false)
      (h : Padded text padded) : Padded (c :: text) (c :: padded)
  | number {digits text padded : List Char} (zeros : Nat) (hne : digits ≠ [])
      (hdigits : ∀ c ∈ digits, c.isDigit = true)
      (hend : ∀ c, text.head? = some c → c.isDigit = false) (h : Padded text padded) :
      Padded (digits ++ text) (List.replicate zeros '0' ++ (digits ++ padded))

variable {text padded left right left' right' : List Char} {c : Char} {n : Nat}

theorem isDigit_of_mem_zeros {zeros : Nat} (h : c ∈ List.replicate zeros '0') :
    c.isDigit = true := by
  rw [List.eq_of_mem_replicate h]
  rfl

/-- Zeros in front of digits do not count. -/
theorem digits?_zeros (zeros : Nat) (h : digits? text = some n) :
    digits? (List.replicate zeros '0' ++ text) = some n := by
  obtain ⟨hne, hdigits⟩ := digits?_eq_some h
  have hall : (List.replicate zeros '0' ++ text).all Char.isDigit = true := by
    rw [List.all_eq_true]
    intro c hc
    rcases List.mem_append.mp hc with hzero | hdigit
    · exact isDigit_of_mem_zeros hzero
    · exact hdigits c hdigit
  have hvalue : Nat.ofDigitChars 10 (List.replicate zeros '0' ++ text) 0 =
      Nat.ofDigitChars 10 text 0 := by
    clear hall
    induction zeros with
    | zero => rfl
    | succ zeros ih =>
      rw [List.replicate_succ, List.cons_append, Nat.ofDigitChars_cons]
      exact ih
  rw [digits?, if_pos ⟨hne, List.all_eq_true.mpr hdigits⟩, Option.some.injEq] at h
  rw [digits?, if_pos ⟨List.append_ne_nil_of_right_ne_nil _ hne, hall⟩, hvalue, h]

namespace Padded

/-! ## Characters -/

theorem of_digits_zeros (zeros : Nat) (hne : text ≠ []) (hdigits : ∀ c ∈ text, c.isDigit = true) :
    Padded text (List.replicate zeros '0' ++ text) := by
  have hend : ∀ c : Char, [].head? = some c → c.isDigit = false := by
    intro c hc
    cases hc
  have hpadded := Padded.number zeros hne hdigits hend .nil
  rwa [List.append_nil] at hpadded

theorem refl (text : List Char) : Padded text text := by
  induction hn : text.length using Nat.strongRecOn generalizing text with
  | ind n ih =>
    obtain ⟨digits, rest, rfl, hdigits, hend, -⟩ := exists_span Char.isDigit text
    rw [List.length_append] at hn
    by_cases hne : digits = []
    · subst hne
      cases rest with
      | nil => exact .nil
      | cons c rest =>
        rw [List.length_cons] at hn
        exact .other (hend c rfl) (ih rest.length (by omega) rest rfl)
    · have hpos := List.length_pos_of_ne_nil hne
      exact .number 0 hne hdigits hend (ih rest.length (by omega) rest rfl)

theorem mem (h : Padded text padded) (hc : c ∈ padded) : c ∈ text ∨ c = '0' := by
  induction h with
  | nil => cases hc
  | other _ _ ih =>
    rcases List.mem_cons.mp hc with rfl | hc
    · exact .inl List.mem_cons_self
    · exact (ih hc).imp_left (List.mem_cons_of_mem _)
  | number zeros _ _ _ _ ih =>
    rcases List.mem_append.mp hc with hc | hc
    · exact .inr (List.eq_of_mem_replicate hc)
    · rcases List.mem_append.mp hc with hc | hc
      · exact .inl (List.mem_append_left _ hc)
      · exact (ih hc).imp_left (List.mem_append_right _)

/-- What the text and a zero are like, the padded text is like. -/
theorem forall_mem {kind : Char → Prop} (h : Padded text padded) (htext : ∀ c ∈ text, kind c)
    (hzero : kind '0') : ∀ c ∈ padded, kind c := by
  intro c hc
  rcases h.mem hc with hmem | rfl
  · exact htext c hmem
  · exact hzero

theorem subset (h : Padded text padded) (hc : c ∈ text) : c ∈ padded := by
  induction h with
  | nil => cases hc
  | other _ _ ih =>
    rcases List.mem_cons.mp hc with rfl | hc
    · exact List.mem_cons_self
    · exact List.mem_cons_of_mem _ (ih hc)
  | number zeros _ _ _ _ ih =>
    refine List.mem_append_right _ ?_
    rcases List.mem_append.mp hc with hc | hc
    · exact List.mem_append_left _ hc
    · exact List.mem_append_right _ (ih hc)

theorem not_mem (h : Padded text padded) (hc : c.isDigit = false) (hmem : c ∉ text) :
    c ∉ padded := by
  intro hpadded
  rcases h.mem hpadded with hmem' | rfl
  · exact hmem hmem'
  · cases hc

/-- A text without numbers stays as it is. -/
theorem eq_self (h : Padded text padded) (htext : ∀ c ∈ text, c.isDigit = false) :
    padded = text := by
  induction h with
  | nil => rfl
  | other _ _ ih => rw [ih fun c hc => htext c (List.mem_cons_of_mem _ hc)]
  | number _ hne hdigits =>
    obtain ⟨c, hc⟩ := List.exists_mem_of_ne_nil _ hne
    have hdigit := hdigits c hc
    rw [htext c (List.mem_append_left _ hc)] at hdigit
    cases hdigit

theorem eq_nil (h : Padded [] padded) : padded = [] := h.eq_self nofun

theorem eq_singleton (h : Padded [c] padded) (hc : c.isDigit = false) : padded = [c] :=
  h.eq_self (List.forall_mem_singleton.mpr hc)

/-- Nor does anything else become a text without numbers. -/
theorem eq_of_padded (h : Padded text padded) (hpadded : ∀ c ∈ padded, c.isDigit = false) :
    padded = text :=
  h.eq_self fun c hc => hpadded c (h.subset hc)

/-- A text of digits alone has zeros in front. -/
theorem exists_zeros (h : Padded text padded) (htext : ∀ c ∈ text, c.isDigit = true) :
    ∃ zeros, padded = List.replicate zeros '0' ++ text := by
  cases h with
  | nil => exact ⟨0, rfl⟩
  | other hc =>
    rw [htext _ List.mem_cons_self] at hc
    cases hc
  | @number digits rest padded zeros _ _ hend h =>
    -- the number goes on to the end of the text
    cases rest with
    | nil =>
      cases h.eq_nil
      exact ⟨zeros, rfl⟩
    | cons c rest =>
      have hdigit := htext c (List.mem_append_right _ List.mem_cons_self)
      rw [hend c rfl] at hdigit
      cases hdigit

theorem digits? (h : Padded text padded) (hn : digits? text = some n) :
    Text.digits? padded = some n := by
  obtain ⟨zeros, rfl⟩ := h.exists_zeros (digits?_eq_some hn).2
  exact digits?_zeros zeros hn

/-! ## Cuts -/

/-- Two texts are padded on both sides of a character that is no digit. -/
theorem append_cons (hc : c.isDigit = false) (hleft : Padded left left')
    (hright : Padded right right') : Padded (left ++ c :: right) (left' ++ c :: right') := by
  induction hleft with
  | nil => exact .other hc hright
  | other hd _ ih => exact .other hd ih
  | @number digits text padded zeros hne hdigits hend _ ih =>
    rw [List.append_assoc, List.append_assoc, List.append_assoc]
    refine .number zeros hne hdigits ?_ ih
    intro d hd
    cases text with
    | nil =>
      obtain rfl := Option.some.inj hd
      exact hc
    | cons e text => exact hend d hd

/-- A text is padded on both sides of a character that is no digit. -/
theorem cut (hc : c.isDigit = false) (h : Padded (left ++ c :: right) padded) :
    ∃ left' right', padded = left' ++ c :: right' ∧ Padded left left' ∧ Padded right right' := by
  generalize htext : left ++ c :: right = text at h
  induction h generalizing left with
  | nil => exact absurd htext (List.append_ne_nil_of_right_ne_nil _ (List.cons_ne_nil _ _))
  | @other d text padded hd h ih =>
    cases left with
    | nil =>
      obtain ⟨rfl, rfl⟩ := List.cons.inj htext
      exact ⟨[], padded, rfl, .nil, h⟩
    | cons e left =>
      obtain ⟨rfl, hrest⟩ := List.cons.inj htext
      obtain ⟨left', right', rfl, hleft, hright⟩ := ih hrest
      exact ⟨_ :: left', right', rfl, .other hd hleft, hright⟩
  | @number digits text padded zeros hne hdigits hend h ih =>
    -- the character is none of the number, so it comes after it
    have hafter : ∃ middle, left = digits ++ middle ∧ middle ++ c :: right = text := by
      rcases List.append_eq_append_iff.mp htext with ⟨middle, hleft, htail⟩ | ⟨middle, hleft, htail⟩
      · cases middle with
        | nil => exact ⟨[], by simp [hleft], by simpa using htail⟩
        | cons d middle =>
          obtain ⟨rfl, -⟩ := List.cons.inj htail
          have hdigit := hdigits c (hleft ▸ List.mem_append_right _ List.mem_cons_self)
          rw [hc] at hdigit
          cases hdigit
      · exact ⟨middle, hleft, htail.symm⟩
    obtain ⟨middle, rfl, htail⟩ := hafter
    obtain ⟨left', right', rfl, hleft, hright⟩ := ih htail
    refine ⟨List.replicate zeros '0' ++ (digits ++ left'), right', by simp, ?_, hright⟩
    refine .number zeros hne hdigits ?_ hleft
    intro d hd
    refine hend d ?_
    rw [← htail, List.head?_append, hd, Option.some_or]

/-! ## Capitals, words and lists -/

theorem isDigit_toUpper (hc : c.isDigit = false) : c.toUpper.isDigit = false := by
  rcases toUpper_eq_or_isUpper c with heq | hupper
  · rwa [heq]
  · rw [← Bool.not_eq_true]
    intro hdigit
    have hletter : 'A'.val ≤ c.toUpper.val := (of_decide_eq_true hupper).1
    have hnumber : c.toUpper.val ≤ '9'.val := of_decide_eq_true (Bool.and_eq_true_iff.mp hdigit).2
    have hfirst : 'A'.val.toNat = 65 := rfl
    have hlast : '9'.val.toNat = 57 := rfl
    rw [UInt32.le_iff_toNat_le] at hletter hnumber
    omega

theorem upper (h : Padded text padded) : Padded (Text.upper text) (Text.upper padded) := by
  induction h with
  | nil => exact .nil
  | other hc _ ih => exact .other (isDigit_toUpper hc) ih
  | @number digits text padded zeros hne hall hend _ ih =>
    rw [upper_append, upper_append, upper_append, upper_digits hall,
      upper_digits fun _ => isDigit_of_mem_zeros]
    refine .number zeros hne hall ?_ ih
    intro c hc
    cases text with
    | nil => cases hc
    | cons d text =>
      obtain rfl := Option.some.inj hc
      exact isDigit_toUpper (hend d rfl)

/-- The words are padded one by one. -/
theorem words (h : Padded text padded) :
    List.Forall₂ Padded (Text.words text) (Text.words padded) := by
  induction hn : text.length using Nat.strongRecOn generalizing text padded with
  | ind n ih =>
    obtain ⟨front, rest, rfl, hfront, hrest, -⟩ := exists_span (!isBlank ·) text
    simp only [Bool.not_eq_true'] at hfront
    cases rest with
    | nil =>
      rw [List.append_nil] at h ⊢
      have hpadded : ∀ c ∈ padded, isBlank c = false := h.forall_mem hfront rfl
      rw [words_of_not_isBlank hfront, words_of_not_isBlank hpadded]
      by_cases hne : front = []
      · subst hne
        rw [h.eq_nil]
        exact .nil
      · obtain ⟨c, hc⟩ := List.exists_mem_of_ne_nil _ hne
        rw [if_neg hne, if_neg (List.ne_nil_of_mem (h.subset hc))]
        exact .cons h .nil
    | cons c rest =>
      have hblank : isBlank c = true := by simpa using hrest c rfl
      obtain ⟨front', rest', rfl, hpfront, hprest⟩ := h.cut (isDigit_of_isBlank hblank)
      rw [List.length_append, List.length_cons] at hn
      rw [words_append_cons hblank, words_append_cons hblank]
      exact List.rel_append (ih front.length (by omega) hpfront rfl)
        (ih rest.length (by omega) hprest rfl)

/-- The pieces of a list are padded one by one. -/
theorem splitOn {mark : Char} (hmark : mark.isDigit = false) (h : Padded text padded) :
    List.Forall₂ Padded (text.splitOn mark) (padded.splitOn mark) := by
  induction text using cutInduction mark generalizing padded with
  | lone text hlone =>
    rw [List.splitOn_eq_singleton hlone, List.splitOn_eq_singleton (h.not_mem hmark hlone)]
    exact .cons h .nil
  | cut left right hleft ih =>
    obtain ⟨left', right', rfl, hpleft, hpright⟩ := h.cut hmark
    rw [splitOn_cut hleft, splitOn_cut (hpleft.not_mem hmark hleft)]
    exact .cons hpleft (ih hpright)

/-- A text is padded when its pieces are. -/
theorem of_splitOn {mark : Char} (hmark : mark.isDigit = false)
    (h : List.Forall₂ Padded (text.splitOn mark) (padded.splitOn mark)) : Padded text padded := by
  induction text using cutInduction mark generalizing padded with
  | lone text hlone =>
    rw [List.splitOn_eq_singleton hlone] at h
    induction padded using cutInduction mark with
    | lone padded hlone' =>
      rw [List.splitOn_eq_singleton hlone'] at h
      exact (List.forall₂_cons.mp h).1
    | cut left' right' hleft' =>
      rw [splitOn_cut hleft'] at h
      exact absurd (List.forall₂_nil_left_iff.mp (List.forall₂_cons.mp h).2)
        (List.splitOn_ne_nil _ _)
  | cut left right hleft ih =>
    rw [splitOn_cut hleft] at h
    induction padded using cutInduction mark with
    | lone padded hlone' =>
      rw [List.splitOn_eq_singleton hlone'] at h
      exact absurd (List.forall₂_nil_right_iff.mp (List.forall₂_cons.mp h).2)
        (List.splitOn_ne_nil _ _)
    | cut left' right' hleft' =>
      rw [splitOn_cut hleft'] at h
      obtain ⟨hpleft, hpright⟩ := List.forall₂_cons.mp h
      exact hpleft.append_cons hmark (ih hpright)

end Padded
end CronSchedule.Text
