import CronSchedule.Proofs.Mark.Entering

/-! # What a table can hold

A table has an entry for each value of its field, marks values of the field only, and marks
them only in ways that the field supports (`MarkTable.Bounded`).  An empty table does, and
each operation keeps it so because it checks the value and the marks first.  Entering a token
is a run of such operations, which may stop at a fault: the table is bounded either way
(`bounded_enterToken`).
-/
namespace CronSchedule

/-! ## Supported marks -/

namespace Field

variable {field : Field} {a b : Marks} {mark : Mark}

theorem supports_iff : field.supports a = true ↔ field.supported &&& a = a := by
  rw [supports, beq_iff_eq]

theorem supports_zero (field : Field) : field.supports 0#8 = true := by
  rw [supports_iff, BitVec.and_zero]

theorem supports_or (ha : field.supports a = true) (hb : field.supports b = true) :
    field.supports (a ||| b) = true := by
  rw [supports_iff] at ha hb ⊢
  rw [BitVec.and_or_distrib_left, ha, hb]

theorem supports_and_left (ha : field.supports a = true) (kept : Marks) :
    field.supports (a &&& kept) = true := by
  rw [supports_iff] at ha ⊢
  rw [← BitVec.and_assoc, ha]

/-- A field supports each mark of a set that it supports. -/
theorem supports_bits (ha : field.supports a = true) (hmark : a.getLsbD mark.index = true) :
    field.supports mark.bits = true := by
  rw [supports_iff] at ha
  rw [supports, Mark.and_bits_eq_bits_iff]
  rw [← ha, BitVec.getLsbD_and, Bool.and_eq_true] at hmark
  exact hmark.1

end Field

namespace MarkTable

/-- Whether a table has an entry for each value of its field, and holds nothing but marks that
the field supports, on values of the field. -/
structure Bounded (table : MarkTable) : Prop where
  complete : table.Complete
  domain : ∀ value, table.marksOf value ≠ 0#8 → table.field.min ≤ value ∧ value ≤ table.field.max
  marks : ∀ value, table.field.supports (table.marksOf value) = true
  features : table.field.supports table.features = true

variable {table result : MarkTable} {field : Field} {value : Nat} {marks : Marks} {how : Mark}

theorem Bounded.of_carries (h : table.Bounded) (hcarries : table.carries value how = true) :
    (table.field.min ≤ value ∧ value ≤ table.field.max) ∧
      table.field.supports how.bits = true := by
  rw [carries_iff] at hcarries
  refine ⟨h.domain value ?_, Field.supports_bits (h.marks value) hcarries⟩
  intro hzero
  rw [hzero, BitVec.getLsbD_zero] at hcarries
  cases hcarries

theorem bounded_empty (field : Field) : (empty field).Bounded where
  complete := complete_empty field
  domain := fun value hvalue => absurd (marksOf_empty field value) hvalue
  marks := fun value => by rw [marksOf_empty]; exact field.supports_zero
  features := field.supports_zero

/-! ## Operations -/

/-- Marks may be written to a value of the field that supports them. -/
theorem Bounded.replace (h : table.Bounded)
    (hvalue : table.field.min ≤ value ∧ value ≤ table.field.max)
    (hmarks : table.field.supports marks = true) : (table.replace value marks).Bounded where
  complete := by rw [Complete, size_replace]; exact h.complete
  domain := by
    intro other hother
    rw [marksOf_replace] at hother
    split at hother
    · rename_i heq
      exact heq.1 ▸ hvalue
    · exact h.domain other hother
  marks := by
    intro other
    rw [marksOf_replace, field_replace]
    split
    · exact hmarks
    · exact h.marks other
  features := h.features

theorem bounded_of_set (h : table.Bounded) (hset : table.set value marks = .ok result) :
    result.Bounded := by
  obtain ⟨_, hcheck, hset⟩ := bind_eq_ok_iff.mp hset
  cases hset
  obtain ⟨hvalue, hmarks⟩ := (table.check_eq_ok_iff value marks).mp hcheck
  exact h.replace hvalue (Field.supports_or (h.marks value) hmarks)

theorem bounded_of_unset (h : table.Bounded) (hunset : table.unset value marks = .ok result) :
    result.Bounded := by
  obtain ⟨_, hcheck, hunset⟩ := bind_eq_ok_iff.mp hunset
  cases hunset
  obtain ⟨hvalue, -⟩ := (table.check_eq_ok_iff value marks).mp hcheck
  exact h.replace hvalue (Field.supports_and_left (h.marks value) _)

theorem bounded_of_setAll {values : List Nat} (h : table.Bounded)
    (hset : table.setAll marks values = .ok result) : result.Bounded := by
  induction values generalizing table with
  | nil => cases hset; exact h
  | cons value values ih =>
    obtain ⟨later, hvalue, hset⟩ := bind_eq_ok_iff.mp hset
    exact ih (bounded_of_set h hvalue) hset

theorem bounded_of_enable (h : table.Bounded) (henable : table.enable marks = .ok result) :
    result.Bounded := by
  unfold enable at henable
  split at henable
  · rename_i hmarks
    cases henable
    exact ⟨h.complete, h.domain, h.marks, Field.supports_or h.features hmarks⟩
  · cases henable

theorem bounded_of_enterText {text : List Char} (h : table.Bounded)
    (henter : table.enterText text = .ok result) : result.Bounded := by
  obtain ⟨element, -, henter⟩ := bind_eq_ok_iff.mp henter
  unfold enter at henter
  split at henter
  · exact bounded_of_enable h henter
  · exact bounded_of_setAll h henter

/-! ## Runs of operations -/

/-- A list leaves a bounded table, also where it is entered in part. -/
theorem bounded_enterTexts (h : table.Bounded) (texts : List (List Char)) :
    (table.enterTexts texts).1.Bounded := by
  induction texts generalizing table with
  | nil => exact h
  | cons text texts ih =>
    rw [enterTexts]
    split
    · rename_i later hlater
      exact ih (bounded_of_enterText h hlater)
    · exact h

/-- Whatever is entered into a bounded table, and however far, leaves a bounded one. -/
theorem bounded_enterToken (h : table.Bounded) (token : List Char) :
    (table.enterToken token).1.Bounded := by
  unfold enterToken
  split
  · split
    · rename_i later hlater
      exact bounded_of_setAll h hlater
    · exact h
  · exact bounded_enterTexts h _

/-! ## Seconds not written -/

/-- The table of the seconds in which zero alone matches. -/
def zeroSeconds : MarkTable := (empty .second).replace 0 Mark.plain.bits

theorem defaultSeconds_eq : defaultSeconds = .ok zeroSeconds := rfl

/-- What comes after that table is made goes on with it. -/
theorem bind_defaultSeconds {α : Type} (f : MarkTable → Except Error α) :
    (defaultSeconds.mapError (.invalidField .second) >>= f) = f zeroSeconds := by
  rw [defaultSeconds_eq]
  rfl

theorem bounded_zeroSeconds : zeroSeconds.Bounded :=
  bounded_of_set (bounded_empty .second) defaultSeconds_eq

/-! ## Questions about every value -/

theorem marksOf_eq_getElem (h : value < table.entries.size) :
    table.marksOf value = table.entries[value] := by
  rw [marksOf, Array.getD_eq_getD_getElem?, Array.getElem?_eq_getElem h, Option.getD_some]

/-- A table is full when all its values match plainly, Sunday being 0 only. -/
theorem isFull_iff (hcomplete : table.Complete) : table.isFull = true ↔
    ∀ value, table.field.min ≤ value →
      value ≤ (if table.field = .dayOfWeek then 6 else table.field.max) →
        table.carries value .plain = true := by
  have hlargest : (if table.field = .dayOfWeek then 6 else table.field.max) ≤ table.field.max := by
    split
    · rename_i hfield
      rw [hfield]
      decide
    · exact Nat.le_refl _
  unfold isFull
  simp only [Array.all_iff_forall]
  constructor
  · intro hall value hmin hmax
    have hsize : value < table.entries.size := by rw [hcomplete]; omega
    rw [carries, marksOf_eq_getElem hsize]
    exact hall value hsize ⟨hmin, by omega⟩
  · intro hall value hsize hrange
    have hcarries := hall value hrange.1 (by omega)
    rwa [carries, marksOf_eq_getElem hsize] at hcarries

end MarkTable
end CronSchedule
