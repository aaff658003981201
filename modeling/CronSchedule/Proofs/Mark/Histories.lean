import CronSchedule.Proofs.Mark.Bounds
import Mathlib.Order.Bounds.Defs

/-! # Tables over any history

A table changes by four operations, called in any order and with any arguments
(`MarkTable.Operation`).  A call that fails counts as well: a checked operation then leaves
the table as it was, and a token leaves what its elements before the faulty one have made of
it.

What one operation keeps (`bounded_perform`) a history keeps (`bounded_after`), by induction on
its length.  So the table after any history has an entry wherever it is read, and every
question about its values has the answer one expects of it (`MarkTable.Answers`).  What makes
a token safe to enter, even one that fails, is that its elements only ever add marks
(`within_enterToken`).
-/
namespace CronSchedule

namespace MarkTable

/-! ## Operations -/

/-- An operation that changes a table. -/
inductive Operation where
  /-- A token is entered as it stands, as far as it can be. -/
  | enter (token : List Char)
  /-- Marks are added to a value. -/
  | set (value : Nat) (marks : Marks)
  /-- Marks are taken from a value. -/
  | unset (value : Nat) (marks : Marks)
  /-- Marks are added for the field as a whole. -/
  | enable (marks : Marks)

/-- What a checked operation leaves, and its fault: where it fails, the table as it was. -/
def keepOnFault (table : MarkTable) : Except Fault MarkTable → MarkTable × Option Fault
  | .ok later => (later, none)
  | .error fault => (table, some fault)

/-- What an operation leaves, and its fault if it fails. -/
def perform (table : MarkTable) : Operation → MarkTable × Option Fault
  | .enter token => table.enterToken token
  | .set value marks => table.keepOnFault (table.set value marks)
  | .unset value marks => table.keepOnFault (table.unset value marks)
  | .enable marks => table.keepOnFault (table.enable marks)

/-- The table after a history of operations, of which any may fail. -/
def after (table : MarkTable) : List Operation → MarkTable
  | [] => table
  | operation :: history => (table.perform operation).1.after history

variable {table result : MarkTable} {value : Nat} {marks : Marks} {operation : Operation}

/-! ### What an operation keeps -/

/-- Whatever holds of a table, and of what a checked operation makes of it, holds after the
operation, whether it fails or not. -/
theorem keepOnFault_of (holds : MarkTable → Prop) {outcome : Except Fault MarkTable}
    (h : holds table) (hresult : ∀ result, outcome = .ok result → holds result) :
    holds (table.keepOnFault outcome).1 := by
  cases outcome with
  | error fault => exact h
  | ok result => exact hresult result rfl

theorem keepOnFault_of_fault {outcome : Except Fault MarkTable} {fault : Fault}
    (h : (table.keepOnFault outcome).2 = some fault) : (table.keepOnFault outcome).1 = table := by
  cases outcome with
  | error fault => rfl
  | ok result => cases h

theorem field_perform (table : MarkTable) (operation : Operation) :
    (table.perform operation).1.field = table.field := by
  cases operation with
  | enter token => exact table.field_enterToken token
  | set value marks => exact keepOnFault_of (·.field = table.field) rfl fun _ => field_of_set
  | unset value marks => exact keepOnFault_of (·.field = table.field) rfl fun _ => field_of_unset
  | enable marks => exact keepOnFault_of (·.field = table.field) rfl fun _ => field_of_enable

theorem bounded_perform (h : table.Bounded) (operation : Operation) :
    (table.perform operation).1.Bounded := by
  cases operation with
  | enter token => exact bounded_enterToken h token
  | set value marks => exact keepOnFault_of Bounded h fun _ => bounded_of_set h
  | unset value marks => exact keepOnFault_of Bounded h fun _ => bounded_of_unset h
  | enable marks => exact keepOnFault_of Bounded h fun _ => bounded_of_enable h

/-- An operation that fails leaves the table as it was, a token apart. -/
theorem perform_of_fault {fault : Fault} (hchecked : ∀ token, operation ≠ .enter token)
    (h : (table.perform operation).2 = some fault) : (table.perform operation).1 = table := by
  cases operation with
  | enter token => exact absurd rfl (hchecked token)
  | set value marks => exact keepOnFault_of_fault h
  | unset value marks => exact keepOnFault_of_fault h
  | enable marks => exact keepOnFault_of_fault h

/-! ### What a history keeps -/

theorem field_after (table : MarkTable) (history : List Operation) :
    (table.after history).field = table.field := by
  induction history generalizing table with
  | nil => rfl
  | cons operation history ih => exact (ih _).trans (table.field_perform operation)

theorem bounded_after (h : table.Bounded) (history : List Operation) :
    (table.after history).Bounded := by
  induction history generalizing table with
  | nil => exact h
  | cons operation history ih => exact ih (bounded_perform h operation)

/-! ## Tokens only add -/

/-- Whether another table carries every mark that a table does. -/
structure Within (table larger : MarkTable) : Prop where
  values : ∀ value how, table.carries value how = true → larger.carries value how = true
  features : ∀ how : Mark, table.isEnabled how.bits = true → larger.isEnabled how.bits = true

theorem within_refl (table : MarkTable) : table.Within table where
  values := fun _ _ => id
  features := fun _ => id

theorem Within.trans {larger largest : MarkTable} (h : table.Within larger)
    (h' : larger.Within largest) : table.Within largest where
  values := fun value how hcarries => h'.values value how (h.values value how hcarries)
  features := fun how henabled => h'.features how (h.features how henabled)

theorem Adds.within {tells : Nat → Mark → Prop} {enables : Mark → Prop}
    (h : table.Adds result tells enables) : table.Within result where
  values := fun value how hcarries => (h.carries value how).mpr (.inl hcarries)
  features := fun how henabled => (h.enabled how).mpr (.inl henabled)

/-- A list only adds marks, also where it is entered in part. -/
theorem within_enterTexts (h : table.Complete) (texts : List (List Char)) :
    table.Within (table.enterTexts texts).1 := by
  induction texts generalizing table with
  | nil => exact table.within_refl
  | cons text texts ih =>
    rw [enterTexts]
    cases htext : table.enterText text with
    | error fault => exact table.within_refl
    | ok later =>
      obtain ⟨element, -, henter⟩ := bind_eq_ok_iff.mp htext
      have hadds := adds_of_enter h henter
      exact hadds.within.trans (ih (hadds.complete h))

/-- A token only adds marks, whether it fails or not. -/
theorem within_enterToken (h : table.Complete) (token : List Char) :
    table.Within (table.enterToken token).1 := by
  unfold enterToken
  split
  · cases hset : table.setAll Mark.plain.bits (domain table.field) with
    | error fault => exact table.within_refl
    | ok later => exact (adds_of_setAll h hset).within
  · exact within_enterTexts h _

/-! ## Questions -/

/-- Whether a table has an entry wherever it is read, and each question about its values has
its answer. -/
structure Answers (table : MarkTable) : Prop where
  entry : ∀ value, value ≤ table.field.max → table.entries[value]? = some (table.marksOf value)
  /-- Looking for the next plain value finds the least one, or that there is none. -/
  next : ∀ start, ∃ found, table.next start = .ok found ∧
    (∀ value, found = some value ↔
      IsLeast {v | start ≤ v ∧ table.carries v .plain = true} value) ∧
    (found = none ↔ ∀ v, start ≤ v → table.carries v .plain = false)
  /-- The values with some of the marks are listed in order, if the field has these marks. -/
  valuesWith : ∀ marks, (table.valuesWith marks).Pairwise (· < ·) ∧
    ∀ value, value ∈ table.valuesWith marks ↔
      table.field.supports marks = true ∧ table.marksOf value &&& marks ≠ 0#8
  isFull : table.isFull = true ↔ ∀ value, table.field.min ≤ value →
    value ≤ (if table.field = .dayOfWeek then 6 else table.field.max) →
      table.carries value .plain = true

theorem isSet_toOption_iff : (table.isSet value marks).toOption.getD false = true ↔
    ((table.field.min ≤ value ∧ value ≤ table.field.max) ∧ table.field.supports marks = true) ∧
      table.marksOf value &&& marks ≠ 0#8 := by
  rw [← check_eq_ok_iff, isSet]
  cases hcheck : table.check value marks with
  | error fault => exact iff_of_false Bool.false_ne_true fun h => by cases h.1
  | ok _ => exact bne_iff_ne.trans (and_iff_right rfl).symm

theorem mem_valuesWith_iff (h : table.Bounded) : value ∈ table.valuesWith marks ↔
    table.field.supports marks = true ∧ table.marksOf value &&& marks ≠ 0#8 := by
  have hdomain : value ∈ domain table.field ↔
      table.field.min ≤ value ∧ value ≤ table.field.max := by
    have := table.field.min_le_max
    rw [domain, List.mem_range'_1]
    omega
  rw [valuesWith, List.mem_filter, hdomain, isSet_toOption_iff]
  constructor
  · rintro ⟨-, ⟨-, hsupports⟩, hmarks⟩
    exact ⟨hsupports, hmarks⟩
  · rintro ⟨hsupports, hmarks⟩
    -- a value without any marks has none of these
    have hvalue := h.domain value fun hzero => hmarks (by rw [hzero, BitVec.zero_and])
    exact ⟨hvalue, ⟨hvalue, hsupports⟩, hmarks⟩

/-- A value that matches plainly is one of those among which the next one is looked for. -/
theorem Bounded.mem_range'_of_carries (h : table.Bounded) {start : Nat} (hstart : start ≤ value)
    (hcarries : table.carries value .plain = true) :
    value ∈ List.range' (Nat.max start table.field.min)
      (table.field.max + 1 - Nat.max start table.field.min) := by
  obtain ⟨⟨hmin, hmax⟩, -⟩ := h.of_carries hcarries
  have hle : Nat.max start table.field.min ≤ value := Nat.max_le.mpr ⟨hstart, hmin⟩
  rw [List.mem_range'_1]
  omega

theorem Bounded.next_exact (h : table.Bounded) (start : Nat) :
    ∃ found, table.next start = .ok found ∧
      (∀ value, found = some value ↔
        IsLeast {v | start ≤ v ∧ table.carries v .plain = true} value) ∧
      (found = none ↔ ∀ v, start ≤ v → table.carries v .plain = false) := by
  have hstart : start ≤ Nat.max start table.field.min := Nat.le_max_left _ _
  refine ⟨_, table.next_eq start, fun value => ?_, ?_⟩
  · rw [List.find?_range'_eq_some]
    constructor
    · rintro ⟨hcarries, hmem, hbelow⟩
      have hfrom := (List.mem_range'_1.mp hmem).1
      refine ⟨⟨Nat.le_trans hstart hfrom, hcarries⟩, fun v hv => Nat.le_of_not_lt fun hlt => ?_⟩
      have hv' := (List.mem_range'_1.mp (h.mem_range'_of_carries hv.1 hv.2)).1
      have hnot := hbelow v hv' hlt
      rw [hv.2] at hnot
      cases hnot
    · rintro ⟨⟨hle, hcarries⟩, hleast⟩
      refine ⟨hcarries, h.mem_range'_of_carries hle hcarries, fun v hv hlt => ?_⟩
      cases hplain : table.carries v .plain with
      | false => rfl
      | true => exact absurd (hleast ⟨Nat.le_trans hstart hv, hplain⟩) (Nat.not_le.mpr hlt)
  · rw [List.find?_eq_none]
    constructor
    · intro hnone v hv
      rw [← Bool.not_eq_true]
      intro hcarries
      exact hnone v (h.mem_range'_of_carries hv hcarries) hcarries
    · intro hnone v hmem
      rw [hnone v (Nat.le_trans hstart (List.mem_range'_1.mp hmem).1)]
      exact Bool.false_ne_true

theorem Bounded.answers (h : table.Bounded) : table.Answers where
  entry := by
    intro value hvalue
    have hsize : value < table.entries.size := by rw [h.complete]; omega
    rw [Array.getElem?_eq_getElem hsize, marksOf_eq_getElem hsize]
  next := h.next_exact
  valuesWith := by
    intro marks
    exact ⟨List.Pairwise.filter _ List.pairwise_lt_range', fun value => mem_valuesWith_iff h⟩
  isFull := isFull_iff h.complete

/-- **Tables over any history.**  Let any operations follow on an empty table, with any texts,
values and marks, of which any may fail.  The table remains one of its field, with an entry for
each value, without marks on other values and with supported marks only, so each question has
its answer.  From there, a further operation that fails leaves the table as it is, a token
apart, and a token never takes a mark away. -/
theorem bounded_and_answers_after (field : Field) (history : List Operation) :
    let table := (empty field).after history
    table.field = field ∧ table.Bounded ∧ table.Answers ∧
      (∀ operation fault, (∀ token, operation ≠ .enter token) →
        (table.perform operation).2 = some fault → (table.perform operation).1 = table) ∧
      ∀ token, table.Within (table.perform (.enter token)).1 := by
  intro table
  have hbounded : table.Bounded := bounded_after (bounded_empty field) history
  refine ⟨field_after (empty field) history, hbounded, hbounded.answers, ?_, ?_⟩
  · intro operation fault
    exact perform_of_fault
  · intro token
    exact within_enterToken hbounded.complete token

/-- A list that fails at its third element and a refused feature: what the list has entered
before it failed is kept, a refused value changes nothing, and the table answers. -/
theorem bounded_and_answers_after_faults :
    ∃ table : MarkTable, (empty .dayOfMonth).after [.enter ['1', '5', 'W', ',', 'L', ',', '3', '2'],
        .enable Mark.plain.bits, .enable (Mark.nth 0).bits] = table ∧
      table.carries 15 .nearestWeekday = true ∧
      (table.perform (.set 32 Mark.plain.bits)).2 = some (.valueOutOfRange 32) ∧
      (table.perform (.set 32 Mark.plain.bits)).1 = table ∧ table.Bounded ∧ table.Answers := by
  obtain ⟨-, hbounded, hanswers, hkept, -⟩ := bounded_and_answers_after .dayOfMonth
    [.enter ['1', '5', 'W', ',', 'L', ',', '3', '2'], .enable Mark.plain.bits,
      .enable (Mark.nth 0).bits]
  refine ⟨_, rfl, by decide, by decide, ?_, hbounded, hanswers⟩
  exact hkept (.set 32 Mark.plain.bits) (.valueOutOfRange 32) (by exact nofun) (by decide)

end MarkTable
end CronSchedule
