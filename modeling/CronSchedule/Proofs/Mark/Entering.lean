import CronSchedule.Proofs.Element.Denotation
import CronSchedule.Proofs.Schedule.Alignment

/-! # What entering adds to a table

A table is read through its marks: which of its values carry which mark
(`MarkTable.carries`), and which marks hold for the field as a whole
(`MarkTable.isEnabled`).  Each mark is one bit, so both are bit tests and together they are
the table.

Entering only ever adds to them.  `Adds` says what one step adds; steps add up
(`Adds.trans`), from a single value over the values of an element to the elements of a list
(`adds_of_enterTexts`).
-/
namespace CronSchedule

/-! ## Marks as bits -/

namespace Mark

/-- The place of a mark in the set that holds it alone. -/
def index : Mark → Nat
  | plain => 0
  | nth k => k.val + 1
  | last => 6
  | nearestWeekday => 7

theorem bits_eq (mark : Mark) : mark.bits = BitVec.twoPow 8 mark.index := by
  have hnth : ∀ k : Fin 5, (nth k).bits = BitVec.twoPow 8 (nth k).index := by decide
  cases mark with
  | nth k => exact hnth k
  | plain | last | nearestWeekday => decide

theorem index_lt (mark : Mark) : mark.index < 8 := by
  cases mark with
  | nth k => simp only [index]; omega
  | plain | last | nearestWeekday => decide

theorem index_inj {a b : Mark} (h : a.index = b.index) : a = b := by
  cases a with
  | nth k =>
    cases b with
    | nth j => simp only [index] at h; rw [show k = j by omega]
    | plain | last | nearestWeekday => simp only [index] at h; omega
  | plain | last | nearestWeekday =>
    cases b with
    | nth j => simp only [index] at h; omega
    | plain | last | nearestWeekday => simp [index] at h ⊢

theorem getLsbD_bits (a b : Mark) : a.bits.getLsbD b.index = true ↔ b = a := by
  rw [bits_eq, BitVec.getLsbD_twoPow, Bool.and_eq_true, decide_eq_true_eq, decide_eq_true_eq]
  constructor
  · rintro ⟨-, heq⟩
    exact index_inj heq.symm
  · rintro rfl
    exact ⟨b.index_lt, rfl⟩

theorem bits_ne_zero (mark : Mark) : mark.bits ≠ 0#8 := by
  intro hzero
  have hbit := (getLsbD_bits mark mark).mpr rfl
  rw [hzero, BitVec.getLsbD_zero] at hbit
  cases hbit

theorem and_bits_ne_zero_iff {marks : Marks} {mark : Mark} :
    (marks &&& mark.bits != 0#8) = true ↔ marks.getLsbD mark.index = true := by
  have hne := mark.bits_ne_zero
  rw [bits_eq] at hne
  rw [bits_eq, BitVec.and_twoPow]
  split
  · rename_i hbit
    simp [hne, hbit]
  · rename_i hbit
    simp [hbit]

theorem and_bits_eq_bits_iff {marks : Marks} {mark : Mark} :
    (marks &&& mark.bits == mark.bits) = true ↔ marks.getLsbD mark.index = true := by
  have hne := mark.bits_ne_zero
  rw [bits_eq] at hne
  rw [bits_eq, BitVec.and_twoPow]
  split
  · rename_i hbit
    simp [hbit]
  · rename_i hbit
    simp [Ne.symm hne, hbit]

end Mark

namespace MarkTable

variable {table result later : MarkTable} {field : Field} {value other start : Nat}
  {mark how : Mark} {marks : Marks}

theorem carries_iff : table.carries value how = true ↔
    (table.marksOf value).getLsbD how.index = true :=
  Mark.and_bits_ne_zero_iff

theorem isEnabled_iff : table.isEnabled how.bits = true ↔
    table.features.getLsbD how.index = true :=
  Mark.and_bits_eq_bits_iff

@[simp] theorem carries_empty (field : Field) (value : Nat) (how : Mark) :
    (empty field).carries value how = false := by
  simp [carries]

theorem isEnabled_empty (field : Field) (how : Mark) :
    (empty field).isEnabled how.bits = false := by
  rw [← Bool.not_eq_true, isEnabled_iff]
  simp [empty]

/-- A table with an entry for each value of its field. -/
def Complete (table : MarkTable) : Prop := table.entries.size = table.field.max + 1

theorem complete_empty (field : Field) : (empty field).Complete := size_empty field

/-! ## Additions -/

/-- Whether a table carries what another one does and what is said besides, no more. -/
structure Adds (table result : MarkTable) (tells : Nat → Mark → Prop) (enables : Mark → Prop) :
    Prop where
  field : result.field = table.field
  complete : table.Complete → result.Complete
  carries : ∀ value how,
    result.carries value how = true ↔ table.carries value how = true ∨ tells value how
  enabled : ∀ how,
    result.isEnabled how.bits = true ↔ table.isEnabled how.bits = true ∨ enables how

variable {tells tells' : Nat → Mark → Prop} {enables enables' : Mark → Prop}

theorem adds_refl (table : MarkTable) : table.Adds table (fun _ _ => False) fun _ => False where
  field := rfl
  complete := id
  carries := by simp
  enabled := by simp

theorem Adds.trans (h : table.Adds later tells enables) (h' : later.Adds result tells' enables') :
    table.Adds result (fun value how => tells value how ∨ tells' value how)
      fun how => enables how ∨ enables' how where
  field := h'.field.trans h.field
  complete := fun hcomplete => h'.complete (h.complete hcomplete)
  carries := fun value how => by rw [h'.carries, h.carries, or_assoc]
  enabled := fun how => by rw [h'.enabled, h.enabled, or_assoc]

/-- What is added may be said in another way. -/
theorem Adds.congr (h : table.Adds result tells enables)
    (htells : ∀ value how, tells value how ↔ tells' value how)
    (henables : ∀ how, enables how ↔ enables' how) : table.Adds result tells' enables' where
  field := h.field
  complete := h.complete
  carries := fun value how => by rw [h.carries, htells]
  enabled := fun how => by rw [h.enabled, henables]

theorem adds_of_set (hcomplete : table.Complete) (h : table.set value mark.bits = .ok result) :
    table.Adds result (fun other how => other = value ∧ how = mark) fun _ => False := by
  obtain ⟨_, hcheck, h⟩ := bind_eq_ok_iff.mp h
  cases h
  have hvalue := ((table.check_eq_ok_iff value mark.bits).mp hcheck).1
  have hsize : value < table.entries.size := by rw [hcomplete]; omega
  refine ⟨rfl, fun _ => ?_, fun other how => ?_, fun how => ?_⟩
  · rwa [Complete, size_replace]
  · rw [carries_iff, carries_iff, marksOf_replace]
    by_cases heq : value = other
    · subst heq
      rw [if_pos ⟨rfl, hsize⟩, BitVec.getLsbD_or, Bool.or_eq_true, Mark.getLsbD_bits]
      simp
    · rw [if_neg fun hboth => heq hboth.1]
      simp [Ne.symm heq]
  · exact (or_iff_left id).symm

theorem adds_of_setAll {values : List Nat} (hcomplete : table.Complete)
    (h : table.setAll mark.bits values = .ok result) :
    table.Adds result (fun value how => value ∈ values ∧ how = mark) fun _ => False := by
  induction values generalizing table with
  | nil =>
    cases h
    exact (adds_refl result).congr (by simp) fun _ => Iff.rfl
  | cons first rest ih =>
    obtain ⟨later, hset, h⟩ := bind_eq_ok_iff.mp h
    have hfirst := adds_of_set hcomplete hset
    refine (hfirst.trans (ih (hfirst.complete hcomplete) h)).congr (fun value how => ?_) (by simp)
    rw [List.mem_cons, or_and_right]

theorem adds_of_enable (h : table.enable mark.bits = .ok result) :
    table.Adds result (fun _ _ => False) fun how => how = mark := by
  unfold enable at h
  split at h
  · cases h
    refine ⟨rfl, id, fun _ _ => (or_iff_left id).symm, fun how => ?_⟩
    rw [isEnabled_iff, isEnabled_iff, BitVec.getLsbD_or, Bool.or_eq_true, Mark.getLsbD_bits]
  · cases h

/-- An element adds its values with its mark, the last day of the month a mark of the field
as a whole. -/
theorem adds_of_enter {element : Element} (hcomplete : table.Complete)
    (h : table.enter element = .ok result) :
    table.Adds result (fun value how => value ∈ element.values table.field ∧ how = element.mark)
      fun how => how = .last ∧ element = .lastDay := by
  unfold enter at h
  split at h
  · rename_i hlast
    subst hlast
    exact (adds_of_enable h).congr (by simp [Element.values]) fun how => by simp [Element.mark]
  · rename_i hlast
    exact (adds_of_setAll hcomplete h).congr (fun _ _ => Iff.rfl) fun how => by simp [hlast]

/-- A list adds what its elements add, one after the other. -/
theorem adds_of_enterTexts {texts : List (List Char)} (hcomplete : table.Complete)
    (h : table.enterTexts texts = (result, none)) :
    table.Adds result
      (fun value how => ∃ text ∈ texts, ∃ element, Element.read table.field text = .ok element ∧
        value ∈ element.values table.field ∧ how = element.mark)
      fun how => how = .last ∧ ∃ text ∈ texts, Element.read table.field text = .ok .lastDay := by
  induction texts generalizing table with
  | nil =>
    cases h
    exact (adds_refl result).congr (by simp) (by simp)
  | cons first rest ih =>
    rw [enterTexts] at h
    cases htext : table.enterText first with
    | error fault =>
      rw [htext] at h
      cases h
    | ok later =>
      rw [htext] at h
      obtain ⟨element, hread, henter⟩ := bind_eq_ok_iff.mp htext
      have hfirst := adds_of_enter hcomplete henter
      have hrest := ih (hfirst.complete hcomplete) h
      rw [hfirst.field] at hrest
      refine (hfirst.trans hrest).congr (fun value how => ?_) fun how => ?_
      · simp [hread]
      · simp [hread, and_or_left]

/-- An element adds its values one by one, unless it is the last day of the month. -/
theorem setAll_of_enter {element : Element} (h : table.enter element = .ok result)
    (hlast : element ≠ .lastDay) :
    table.setAll element.mark.bits (element.values table.field) = .ok result := by
  rwa [enter, if_neg hlast] at h

/-- Texts that are read alike are entered alike. -/
theorem enterTexts_congr {texts texts' : List (List Char)}
    (h : texts.map (Element.read table.field) = texts'.map (Element.read table.field)) :
    table.enterTexts texts = table.enterTexts texts' := by
  induction texts generalizing table texts' with
  | nil =>
    obtain rfl := List.map_eq_nil_iff.mp h.symm
    rfl
  | cons text texts ih =>
    obtain ⟨text', texts', rfl, hread, hrest⟩ := List.map_eq_cons_iff.mp h.symm
    have htext : table.enterText text = table.enterText text' := by
      rw [enterText, enterText, hread]
    rw [enterTexts, enterTexts, htext]
    cases hlater : table.enterText text' with
    | error fault => rfl
    | ok later =>
      have hfield := field_of_enterText hlater
      exact ih (by rw [hfield]; exact hrest.symm)

end MarkTable
end CronSchedule
