import CronSchedule.Proofs.Mark.Unions

/-! # Sunday

Sunday is 0 as well as 7.  Once a weekday table is filled, the marks of 7 are moved to 0 one by
one, each with the checks that every operation makes.  A table of weekdays passes them all, and
it ends with the marks of both on 0 and none on 7 (`foldSunday_eq`).
-/
namespace CronSchedule

theorem Mark.mem_ofWeekdays_iff {mark : Mark} :
    mark ∈ ofWeekdays ↔ Field.dayOfWeek.supports mark.bits = true := by
  have hnth : ∀ k, nth k ∈ ofWeekdays ∧ Field.dayOfWeek.supports (nth k).bits = true := by decide
  cases mark with
  | nth k => exact iff_of_true (hnth k).1 (hnth k).2
  | plain | last | nearestWeekday => decide

namespace MarkTable

variable {table later result : MarkTable} {value other : Nat} {mark how : Mark}

/-! ## Moved marks -/

/-- Whether the marks of some kind have been moved from 7 to 0, and nothing else has changed. -/
structure MovesSunday (table result : MarkTable) (moved : Mark → Prop) : Prop where
  field : result.field = table.field
  bounded : table.Bounded → result.Bounded
  carries : ∀ value how, result.carries value how = true ↔ ¬ (moved how ∧ value = 7) ∧
    (table.carries value how = true ∨ moved how ∧ value = 0 ∧ table.carries 7 how = true)
  features : result.features = table.features

variable {moved moved' : Mark → Prop}

theorem movesSunday_refl (table : MarkTable) : table.MovesSunday table fun _ => False where
  field := rfl
  bounded := id
  carries := by simp
  features := rfl

theorem MovesSunday.trans (h : table.MovesSunday later moved)
    (h' : later.MovesSunday result moved') :
    table.MovesSunday result fun how => moved how ∨ moved' how where
  field := h'.field.trans h.field
  bounded := fun hbounded => h'.bounded (h.bounded hbounded)
  carries := by
    intro value how
    rw [h'.carries, h.carries, h.carries]
    grind
  features := h'.features.trans h.features

/-- What is moved may be said in another way. -/
theorem MovesSunday.congr (h : table.MovesSunday result moved)
    (hmoved : ∀ how, moved how ↔ moved' how) : table.MovesSunday result moved' where
  field := h.field
  bounded := h.bounded
  carries := fun value how => by rw [h.carries, hmoved]
  features := h.features

/-! ## One mark -/

theorem features_of_set (h : table.set value mark.bits = .ok result) :
    result.features = table.features := by
  obtain ⟨_, -, h⟩ := bind_eq_ok_iff.mp h
  cases h
  rfl

theorem features_of_unset (h : table.unset value mark.bits = .ok result) :
    result.features = table.features := by
  obtain ⟨_, -, h⟩ := bind_eq_ok_iff.mp h
  cases h
  rfl

/-- A value loses the mark that is taken from it. -/
theorem carries_of_unset (hcomplete : table.Complete)
    (h : table.unset value mark.bits = .ok result) :
    result.carries other how = true ↔
      table.carries other how = true ∧ ¬ (other = value ∧ how = mark) := by
  obtain ⟨_, hcheck, h⟩ := bind_eq_ok_iff.mp h
  cases h
  have hvalue := ((table.check_eq_ok_iff value mark.bits).mp hcheck).1
  have hsize : value < table.entries.size := by rw [hcomplete]; omega
  rw [carries_iff, carries_iff, marksOf_replace]
  by_cases heq : value = other
  · subst heq
    rw [if_pos ⟨rfl, hsize⟩, BitVec.getLsbD_and, BitVec.getLsbD_not, Bool.and_eq_true,
      Bool.and_eq_true, Bool.not_eq_true', ← Bool.not_eq_true, Mark.getLsbD_bits]
    simp [how.index_lt]
  · rw [if_neg fun hboth => heq hboth.1]
    simp [Ne.symm heq]

theorem movesSunday_of_unset (hbounded : table.Bounded)
    (hcarries : table.carries 7 mark = true) (hunset : table.unset 7 mark.bits = .ok later)
    (hset : later.set 0 mark.bits = .ok result) : table.MovesSunday result (· = mark) where
  field := (field_of_set hset).trans (field_of_unset hunset)
  bounded := fun _ => bounded_of_set (bounded_of_unset hbounded hunset) hset
  carries := by
    intro value how
    have hlater := bounded_of_unset hbounded hunset
    rw [(adds_of_set hlater.complete hset).carries, carries_of_unset hbounded.complete hunset]
    grind
  features := (features_of_set hset).trans (features_of_unset hunset)

/-- One mark is moved, without a fault. -/
theorem exists_moveSunday (hbounded : table.Bounded) (hfield : table.field = .dayOfWeek)
    (hmark : mark ∈ Mark.ofWeekdays) :
    ∃ result, table.moveSunday mark = .ok result ∧ table.MovesSunday result (· = mark) := by
  have hcheck : ∀ {table : MarkTable} {value : Nat}, table.field = .dayOfWeek → value ≤ 7 →
      table.check value mark.bits = .ok () := by
    intro table value hfield hvalue
    rw [check_eq_ok_iff, hfield]
    exact ⟨⟨Nat.zero_le value, hvalue⟩, Mark.mem_ofWeekdays_iff.mp hmark⟩
  have hasked : table.isSet 7 mark.bits = .ok (table.carries 7 mark) :=
    bind_eq_ok_iff.mpr ⟨(), hcheck hfield (Nat.le_refl 7), rfl⟩
  cases hcarries : table.carries 7 mark with
  | true =>
    rw [hcarries] at hasked
    obtain ⟨later, hunset⟩ : ∃ later, table.unset 7 mark.bits = .ok later :=
      ⟨_, bind_eq_ok_iff.mpr ⟨(), hcheck hfield (Nat.le_refl 7), rfl⟩⟩
    have hlater := (field_of_unset hunset).trans hfield
    obtain ⟨result, hset⟩ : ∃ result, later.set 0 mark.bits = .ok result :=
      ⟨_, bind_eq_ok_iff.mpr ⟨(), hcheck hlater (Nat.zero_le 7), rfl⟩⟩
    exact ⟨result, bind_eq_ok_iff.mpr ⟨true, hasked, bind_eq_ok_iff.mpr ⟨later, hunset, hset⟩⟩,
      movesSunday_of_unset hbounded hcarries hunset hset⟩
  | false =>
    rw [hcarries] at hasked
    refine ⟨table, bind_eq_ok_iff.mpr ⟨false, hasked, rfl⟩, rfl, id, fun value how => ?_, rfl⟩
    grind

/-! ## All marks -/

/-- The marks are moved one after the other. -/
theorem exists_foldlM_moveSunday {marks : List Mark} (hbounded : table.Bounded)
    (hfield : table.field = .dayOfWeek) (hmarks : marks ⊆ Mark.ofWeekdays) :
    ∃ result, marks.foldlM moveSunday table = .ok result ∧
      table.MovesSunday result (· ∈ marks) := by
  induction marks generalizing table with
  | nil => exact ⟨table, rfl, (movesSunday_refl table).congr (by simp)⟩
  | cons mark marks ih =>
    obtain ⟨hmark, hmarks⟩ := List.cons_subset.mp hmarks
    obtain ⟨later, hlater, hmoves⟩ := exists_moveSunday hbounded hfield hmark
    obtain ⟨result, hresult, hrest⟩ :=
      ih (hmoves.bounded hbounded) (hmoves.field.trans hfield) hmarks
    refine ⟨result, ?_, (hmoves.trans hrest).congr fun how => List.mem_cons.symm⟩
    rw [List.foldlM_cons]
    exact bind_eq_ok_iff.mpr ⟨later, hlater, hresult⟩

/-- The weekday table with all marks of 7 moved to 0 at once. -/
def folded (table : MarkTable) : MarkTable :=
  (table.replace 0 (table.marksOf 0 ||| table.marksOf 7)).replace 7 0#8

/-- Sunday is moved from 7 to 0, with all its marks. -/
theorem carries_folded (hcomplete : table.Complete) (hfield : table.field = .dayOfWeek) :
    table.folded.carries value how = true ↔
      value ≠ 7 ∧ (table.carries value how = true ∨ value = 0 ∧ table.carries 7 how = true) := by
  have hsize : table.entries.size = 8 := by rw [hcomplete, hfield]; rfl
  rw [folded, carries_iff, carries_iff, carries_iff, marksOf_replace, marksOf_replace,
    size_replace, hsize]
  by_cases hseven : value = 7
  · subst hseven
    simp
  · by_cases hzero : value = 0
    · subst hzero
      simp
    · simp [hseven, hzero, Ne.symm hseven, Ne.symm hzero]

/-- Moving Sunday from 7 to 0 keeps within the weekdays. -/
theorem Bounded.folded (h : table.Bounded) (hfield : table.field = .dayOfWeek) :
    table.folded.Bounded := by
  have hzero : table.field.min ≤ 0 ∧ 0 ≤ table.field.max := by rw [hfield]; decide
  have hseven : table.field.min ≤ 7 ∧ 7 ≤ table.field.max := by rw [hfield]; decide
  exact (h.replace hzero (Field.supports_or (h.marks 0) (h.marks 7))).replace hseven
    (Field.supports_zero _)

/-- A table of weekdays passes all checks while the marks of 7 are moved one by one, and they
are moved as if at once. -/
theorem foldSunday_eq (h : table.Bounded) (hfield : table.field = .dayOfWeek) :
    table.foldSunday = .ok table.folded := by
  obtain ⟨result, hresult, hmoves⟩ := exists_foldlM_moveSunday h hfield (List.Subset.refl _)
  rw [foldSunday, hresult, Except.ok.injEq]
  refine eq_of_carries hmoves.field (hmoves.bounded h).complete (h.folded hfield).complete
    (fun value how => ?_) fun how => ?_
  · have hcarried : ∀ {value : Nat}, table.carries value how = true → how ∈ Mark.ofWeekdays :=
      fun hcarries => Mark.mem_ofWeekdays_iff.mpr (hfield ▸ (h.of_carries hcarries).2)
    rw [hmoves.carries, carries_folded h.complete hfield]
    grind
  · rw [isEnabled_iff, isEnabled_iff, hmoves.features]
    rfl

end MarkTable
end CronSchedule
