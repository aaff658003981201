import CronSchedule.Proofs.Mark.Bounds
import Mathlib.Data.List.Basic

/-! # Unions of tables

The marks of a value are a byte, and tables are put together by the bitwise or of their bytes
(`MarkTable.IsUnion`).  Each bit of a byte is a mark, so a byte is known once it is known which
marks it holds (`Marks.eq_of_marks`).  From this a table is a union when it carries just what
one of its parts carries (`isUnion_of_carries`), and two tables of one field that carry the
same are equal (`eq_of_carries`).
-/
namespace CronSchedule

/-- Every bit of a byte is a mark. -/
theorem Mark.exists_index_eq {i : Nat} (h : i < 8) : ∃ mark : Mark, mark.index = i := by
  have hall : ∀ i : Fin 8, ∃ mark ∈ [Mark.plain, .nth 0, .nth 1, .nth 2, .nth 3, .nth 4, .last,
      .nearestWeekday], mark.index = i := by decide
  obtain ⟨mark, -, hmark⟩ := hall ⟨i, h⟩
  exact ⟨mark, hmark⟩

namespace Marks

theorem eq_of_marks {a b : Marks}
    (h : ∀ how : Mark, a.getLsbD how.index = true ↔ b.getLsbD how.index = true) : a = b := by
  refine BitVec.eq_of_getLsbD_eq fun i hi => ?_
  obtain ⟨how, rfl⟩ := Mark.exists_index_eq hi
  exact Bool.eq_iff_iff.mpr (h how)

/-- The bitwise or of some sets of marks. -/
def union (sets : List Marks) : Marks := sets.foldr (· ||| ·) 0#8

theorem getLsbD_union {sets : List Marks} {i : Nat} :
    (union sets).getLsbD i = true ↔ ∃ marks ∈ sets, marks.getLsbD i = true := by
  induction sets with
  | nil => exact iff_of_false (by simp [union]) (by simp)
  | cons first rest ih =>
    rw [show union (first :: rest) = first ||| union rest from rfl, BitVec.getLsbD_or,
      Bool.or_eq_true, ih, List.exists_mem_cons_iff]

end Marks

namespace MarkTable

variable {table other : MarkTable} {parts : List MarkTable}

/-- Whether the marks of a table, value by value and for the field as a whole, are the bitwise
or of those of some others. -/
structure IsUnion (table : MarkTable) (parts : List MarkTable) : Prop where
  marks : ∀ value, table.marksOf value = Marks.union (parts.map (·.marksOf value))
  features : table.features = Marks.union (parts.map (·.features))

theorem isUnion_of_carries
    (hcarries : ∀ value how, table.carries value how = true ↔
      ∃ part ∈ parts, part.carries value how = true)
    (henabled : ∀ how : Mark, table.isEnabled how.bits = true ↔
      ∃ part ∈ parts, part.isEnabled how.bits = true) : table.IsUnion parts where
  marks := by
    intro value
    refine Marks.eq_of_marks fun how => ?_
    rw [← carries_iff, hcarries, Marks.getLsbD_union]
    simp only [List.mem_map, exists_exists_and_eq_and, carries_iff]
  features := by
    refine Marks.eq_of_marks fun how => ?_
    rw [← isEnabled_iff, henabled, Marks.getLsbD_union]
    simp only [List.mem_map, exists_exists_and_eq_and, isEnabled_iff]

/-- A table with an entry for each value of its field is known by what it carries. -/
theorem eq_of_carries (hfield : table.field = other.field) (hcomplete : table.Complete)
    (hcomplete' : other.Complete)
    (hcarries : ∀ value how, table.carries value how = true ↔ other.carries value how = true)
    (henabled : ∀ how : Mark, table.isEnabled how.bits = true ↔
      other.isEnabled how.bits = true) : table = other := by
  have hmarks : ∀ value, table.marksOf value = other.marksOf value := by
    intro value
    refine Marks.eq_of_marks fun how => ?_
    rw [← carries_iff, ← carries_iff, hcarries]
  have hfeatures : table.features = other.features := by
    refine Marks.eq_of_marks fun how => ?_
    rw [← isEnabled_iff, ← isEnabled_iff, henabled]
  have hentries : table.entries = other.entries := by
    refine Array.ext (by rw [hcomplete, hcomplete', hfield]) fun value hvalue hvalue' => ?_
    rw [← marksOf_eq_getElem hvalue, ← marksOf_eq_getElem hvalue', hmarks]
  cases table
  cases other
  congr

end MarkTable
end CronSchedule
