import CronSchedule.Mark.Basic
import CronSchedule.Text.Numeral

/-! # Elements of a field

A field is a star or a comma list of elements.  An `Element` is one of them as written;
`Element.values` are the values it names in a field and `Element.mark` the way in which
they match.
-/
namespace CronSchedule

/-- What a step walks over. -/
inductive Span where
  /-- The whole field. -/
  | whole
  /-- From a value to the end of the field. -/
  | upFrom (first : Nat)
  /-- From one value to another. -/
  | between (first last : Nat)
  deriving DecidableEq

namespace Span

/-- The value a span starts at. -/
def first (field : Field) : Span → Nat
  | whole => field.min
  | upFrom first => first
  | between first _ => first

/-- The value a span does not go beyond. -/
def last (field : Field) : Span → Nat
  | whole | upFrom _ => field.max
  | between _ last => last

end Span

/-- One element of a comma list. -/
inductive Element where
  | single (value : Nat) (mark : Mark)
  | range (first last : Nat) (mark : Mark)
  | stepped (span : Span) (step : Nat)
  /-- The weekday nearest to a day of the month. -/
  | nearestWeekday (day : Nat)
  /-- The last day of the month. -/
  | lastDay
  deriving DecidableEq

/-- Every number of a field is a byte. -/
theorem Field.max_le_byteLimit (field : Field) : field.max ≤ Text.byteLimit :=
  Nat.le_trans field.max_le (by decide)

/-- The number one step further, if it is still a byte. -/
def stepFrom? (value step : Nat) : Option Nat :=
  if value + step ≤ Text.byteLimit then some (value + step) else none

/-- The numbers `first`, `first + step`, … that are at most `last`, as far as they are bytes.
A step of zero, which no element has, leads nowhere. -/
def progression (first last step : Nat) : List Nat :=
  if first ≤ last then
    first :: match stepFrom? first step with
      | some next => if first < next then progression next last step else []
      | none => []
  else []
termination_by last + 1 - first

theorem stepFrom?_eq_some_iff {value step next : Nat} :
    stepFrom? value step = some next ↔ value + step = next ∧ next ≤ Text.byteLimit := by
  unfold stepFrom?
  split
  · rename_i hle
    rw [Option.some.injEq]
    exact ⟨fun h => ⟨h, h ▸ hle⟩, And.left⟩
  · rename_i hgt
    exact iff_of_false nofun fun h => hgt (h.1 ▸ h.2)

/-- Where the last number is a byte no step is lost, and the numbers are as many as fit. -/
theorem progression_eq {first last step : Nat} (hstep : 0 < step)
    (hlast : last ≤ Text.byteLimit) :
    progression first last step =
      if first ≤ last then List.range' first ((last - first) / step + 1) step else [] := by
  fun_induction progression first last step with
  | case1 first hle ih =>
    rw [if_pos hle]
    by_cases hroom : first + step ≤ last
    · have hnext : stepFrom? first step = some (first + step) :=
        stepFrom?_eq_some_iff.mpr ⟨rfl, by omega⟩
      have hcount : (last - first) / step = (last - (first + step)) / step + 1 := by
        rw [Nat.div_eq_sub_div hstep (by omega), Nat.sub_add_eq]
      rw [hnext, hcount, List.range'_succ]
      simp only
      rw [if_pos (by omega), ih _ (by omega), if_pos hroom]
    · rw [Nat.div_eq_of_lt (by omega), List.range'_one]
      congr 1
      cases hnext : stepFrom? first step with
      | none => rfl
      | some next =>
        obtain ⟨rfl, -⟩ := stepFrom?_eq_some_iff.mp hnext
        simp only
        rw [if_pos (by omega), ih _ (by omega), if_neg hroom]
  | case2 first hlt => rw [if_neg hlt]

/-- Within a field a progression holds what is a whole number of steps after its start. -/
theorem mem_progression {field : Field} {first last step n : Nat} (hstep : 0 < step)
    (hlast : last ≤ field.max) :
    n ∈ progression first last step ↔ n ≤ last ∧ ∃ k, n = first + step * k := by
  rw [progression_eq hstep (Nat.le_trans hlast field.max_le_byteLimit)]
  split
  · rename_i hle
    rw [List.mem_range']
    constructor
    · rintro ⟨k, hk, rfl⟩
      refine ⟨?_, k, rfl⟩
      have h : k ≤ (last - first) / step := Nat.lt_succ_iff.mp hk
      have := (Nat.le_div_iff_mul_le hstep).mp h
      rw [Nat.mul_comm] at this
      omega
    · rintro ⟨hn, k, rfl⟩
      refine ⟨k, Nat.lt_succ_of_le ((Nat.le_div_iff_mul_le hstep).mpr ?_), rfl⟩
      rw [Nat.mul_comm]
      omega
  · rename_i hlt
    simp only [List.not_mem_nil, false_iff, not_and, not_exists]
    rintro hn k rfl
    omega

/-- In steps of one it holds all numbers from the first to the last. -/
theorem progression_one {field : Field} {first last : Nat} (hlast : last ≤ field.max) :
    progression first last 1 = List.range' first (last + 1 - first) := by
  rw [progression_eq Nat.one_pos (Nat.le_trans hlast field.max_le_byteLimit), Nat.div_one]
  split
  · rename_i hle
    rw [Nat.sub_add_comm hle]
  · rename_i hlt
    rw [Nat.sub_eq_zero_of_le (by omega), List.range'_zero]

namespace Element

/-- The values an element names in a field.  The last day of the month names none: it
holds for the field as a whole. -/
def values (field : Field) : Element → List Nat
  | single value _ => [value]
  | range first last _ => List.range' first (last + 1 - first)
  | stepped span step => progression (span.first field) (span.last field) step
  | nearestWeekday day => [day]
  | lastDay => []

/-- The way in which the values of an element match. -/
def mark : Element → Mark
  | single _ mark | range _ _ mark => mark
  | stepped .. => .plain
  | nearestWeekday _ => .nearestWeekday
  | lastDay => .last

end Element
end CronSchedule
