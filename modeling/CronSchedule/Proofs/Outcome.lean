import CronSchedule.Schedule.Matching

/-! # When a question has an answer

Most functions of the library either answer or fail.  These lemmas open one that is put
together from others: it answers when its parts do, with what they answer.
-/
namespace CronSchedule

section Except

variable {ε ε' α β : Type} {x : Except ε α}

theorem bind_eq_ok_iff {f : α → Except ε β} {b : β} :
    x >>= f = .ok b ↔ ∃ a, x = .ok a ∧ f a = .ok b := by
  cases x with
  | error e => simp [bind, Except.bind]
  | ok a => simp [bind, Except.bind]

theorem bind_eq_error_iff {f : α → Except ε β} {e : ε} :
    x >>= f = .error e ↔ x = .error e ∨ ∃ a, x = .ok a ∧ f a = .error e := by
  cases x with
  | error e => simp [bind, Except.bind]
  | ok a => simp [bind, Except.bind]

/-- Two steps answer when the first does and the second does after it. -/
theorem exists_bind_eq_ok_iff {f : α → Except ε β} :
    (∃ b, x >>= f = .ok b) ↔ ∃ a, x = .ok a ∧ ∃ b, f a = .ok b := by
  cases x with
  | error e => simp [bind, Except.bind]
  | ok a => simp [bind, Except.bind]

theorem map_eq_ok_iff {f : α → β} {b : β} : x.map f = .ok b ↔ ∃ a, x = .ok a ∧ f a = b := by
  cases x with
  | error e => simp [Except.map]
  | ok a => simp [Except.map]

theorem map_eq_error_iff {f : α → β} {e : ε} : x.map f = .error e ↔ x = .error e := by
  cases x with
  | error e => simp [Except.map]
  | ok a => simp [Except.map]

@[simp] theorem mapError_ok {f : ε → ε'} {a : α} :
    (Except.ok a : Except ε α).mapError f = .ok a := rfl

theorem mapError_eq_ok_iff {f : ε → ε'} {a : α} : x.mapError f = .ok a ↔ x = .ok a := by
  cases x with
  | error e => exact iff_of_false nofun nofun
  | ok b =>
    constructor
    · intro h
      cases h
      rfl
    · intro h
      cases h
      rfl

theorem exists_ok_iff : (∃ a, x = .ok a) ↔ ∀ e, x ≠ .error e := by
  cases x with
  | error e => exact iff_of_false nofun fun h => h e rfl
  | ok a => exact iff_of_true ⟨a, rfl⟩ nofun

theorem toBool_eq_true_iff : x.toBool = true ↔ ∃ a, x = .ok a := by
  cases x with
  | error e => simp [Except.toBool]
  | ok a => simp [Except.toBool]

end Except

/-! ## Two questions

The second one of `andM` is asked only after a yes to the first, and that of `orM` only after a
no.
-/

section Questions

variable {ε : Type} {first second : Except ε Bool}

@[simp] theorem andM_true (answer : Except ε Bool) : (.ok true <&&> answer) = answer := rfl

@[simp] theorem andM_false (answer : Except ε Bool) : (.ok false <&&> answer) = .ok false := rfl

@[simp] theorem andM_error (error : ε) (answer : Except ε Bool) :
    (.error error <&&> answer) = .error error := rfl

@[simp] theorem orM_true (answer : Except ε Bool) : (.ok true <||> answer) = .ok true := rfl

@[simp] theorem orM_false (answer : Except ε Bool) : (.ok false <||> answer) = answer := rfl

@[simp] theorem orM_error (error : ε) (answer : Except ε Bool) :
    (.error error <||> answer) = .error error := rfl

theorem exists_andM (h : ∃ b, first = .ok b) (h' : ∃ b, second = .ok b) :
    ∃ b, (first <&&> second) = .ok b := by
  obtain ⟨b, rfl⟩ := h
  cases b with
  | false => exact ⟨false, rfl⟩
  | true => exact h'

theorem exists_orM (h : ∃ b, first = .ok b) (h' : ∃ b, second = .ok b) :
    ∃ b, (first <||> second) = .ok b := by
  obtain ⟨b, rfl⟩ := h
  cases b with
  | false => exact h'
  | true => exact ⟨true, rfl⟩

@[simp] theorem andM_ok (a b : Bool) : (.ok a <&&> .ok b : Except ε Bool) = .ok (a && b) := by
  cases a with
  | false => rfl
  | true => rfl

@[simp] theorem orM_ok (a b : Bool) : (.ok a <||> .ok b : Except ε Bool) = .ok (a || b) := by
  cases a with
  | false => rfl
  | true => rfl

theorem andM_eq_ok_true_iff :
    (first <&&> second) = .ok true ↔ first = .ok true ∧ second = .ok true := by
  cases first with
  | error e => simp
  | ok b =>
    cases b with
    | false => simp
    | true => simp

theorem andM_eq_error_iff {error : ε} : (first <&&> second) = .error error ↔
    first = .error error ∨ first = .ok true ∧ second = .error error := by
  cases first with
  | error e => simp
  | ok b =>
    cases b with
    | false => simp
    | true => simp

theorem orM_eq_error_iff {error : ε} : (first <||> second) = .error error ↔
    first = .error error ∨ first = .ok false ∧ second = .error error := by
  cases first with
  | error e => simp
  | ok b =>
    cases b with
    | false => simp
    | true => simp

end Questions

end CronSchedule
