import CronSchedule.Proofs.Element.Denotation

/-! # The grammar of an element

What the text of an element may be, said without reference to how it is read: a value, an
ascending range, either of them or a star with a step, and the marks of the two day fields
(`IsElement`).  Numbers are decimal and values lie in the field.

The reader takes one form more.  In `40/5` the value is not held against the end of the
field: nothing lies from there to the end, so there is nothing to refuse (`IsOvershoot`).
Everything that is read and fits its field is one or the other (`exists_read_iff`).
-/
namespace CronSchedule

open Text

/-! ## Forms -/

/-- A number of the field. -/
def IsValue (field : Field) (text : List Char) : Prop :=
  ∃ n, digits? text = some n ∧ field.min ≤ n ∧ n ≤ field.max

/-- Two numbers of the field that do not descend. -/
def IsRange (field : Field) (text : List Char) : Prop :=
  ∃ first last m n, text = first ++ '-' :: last ∧ digits? first = some m ∧
    digits? last = some n ∧ field.min ≤ m ∧ m ≤ n ∧ n ≤ field.max

/-- A value or a range. -/
def IsSelection (field : Field) (text : List Char) : Prop :=
  IsValue field text ∨ IsRange field text

/-- The number of a step. -/
def IsStep (text : List Char) : Prop :=
  ∃ n, digits? text = some n ∧ 1 ≤ n ∧ n ≤ 255

/-- What may follow a weekday: the last one of a month, or the first to fifth. -/
def IsMark (text : List Char) : Prop :=
  text = ['L'] ∨ text = ['#', 'L'] ∨
    ∃ count n, text = '#' :: count ∧ digits? count = some n ∧ 1 ≤ n ∧ n ≤ 5

/-- The text of an element of a field. -/
inductive IsElement (field : Field) : List Char → Prop
  | plain {text : List Char} (h : IsSelection field text) : IsElement field text
  | stepped {text step : List Char} (h : IsSelection field text) (hstep : IsStep step) :
    IsElement field (text ++ '/' :: step)
  | wholeStepped {step : List Char} (hstep : IsStep step) : IsElement field ('*' :: '/' :: step)
  | lastDay (hfield : field = .dayOfMonth) : IsElement field ['L']
  | nearestWeekday {text : List Char} (hfield : field = .dayOfMonth) (h : IsValue field text) :
    IsElement field (text ++ ['W'])
  | marked {text mark : List Char} (hfield : field = .dayOfWeek) (h : IsSelection field text)
    (hmark : IsMark mark) : IsElement field (text ++ mark)

/-- A step from a number on that lies beyond the end of the field. -/
def IsOvershoot (field : Field) (text : List Char) : Prop :=
  ∃ first step n, text = first ++ '/' :: step ∧ digits? first = some n ∧ field.max < n ∧
    n ≤ 255 ∧ IsStep step

variable {field : Field} {text base : List Char}

theorem IsValue.isSelection (h : IsValue field text) : IsSelection field text := .inl h

/-- A selection holds nothing but digits and a dash. -/
theorem IsSelection.not_mem (h : IsSelection field text) {c : Char} (hc : c.isDigit = false)
    (hdash : c ≠ '-') : c ∉ text := by
  rcases h with ⟨n, hn, -⟩ | ⟨first, last, m, n, rfl, hm, hn, -⟩
  · exact not_mem_of_digits? hn hc
  · rw [List.mem_append, List.mem_cons]
    rintro (hfirst | heq | hlast)
    · exact not_mem_of_digits? hm hc hfirst
    · exact hdash heq
    · exact not_mem_of_digits? hn hc hlast

/-- A mark holds nothing but digits and the two characters that start one. -/
theorem IsMark.not_mem (h : IsMark text) {c : Char} (hc : c.isDigit = false) (hlast : c ≠ 'L')
    (hhash : c ≠ '#') : c ∉ text := by
  rcases h with rfl | rfl | ⟨count, n, rfl, hn, -⟩
  · simp [hlast]
  · simp [hlast, hhash]
  · rw [List.mem_cons, not_or]
    exact ⟨hhash, not_mem_of_digits? hn hc⟩

theorem IsOvershoot.mem_slash (h : IsOvershoot field text) : '/' ∈ text := by
  obtain ⟨first, step, n, rfl, -⟩ := h
  exact List.mem_append_right _ List.mem_cons_self

/-- No text is both. -/
theorem not_isElement_of_isOvershoot (h : IsOvershoot field text) : ¬ IsElement field text := by
  have hslash := h.mem_slash
  obtain ⟨first, step, n, rfl, hn, hover, -⟩ := h
  have hcut : cutAt? '/' (first ++ '/' :: step) = some (first, step) :=
    cutAt?_eq_some_iff.mpr ⟨rfl, not_mem_of_digits? hn (by decide)⟩
  intro helement
  generalize htext : first ++ '/' :: step = text at helement hcut hslash
  cases helement with
  | plain h => exact h.not_mem (by decide) (by decide) hslash
  | @stepped base step' h hstep =>
    rw [cutAt?_eq_some_iff.mpr ⟨rfl, h.not_mem (by decide) (by decide)⟩] at hcut
    cases hcut
    rcases h with ⟨m, hm, -, hmax⟩ | ⟨left, right, -, -, rfl, -⟩
    · rw [hm, Option.some.injEq] at hn
      omega
    · exact not_mem_of_digits? hn (c := '-') (by decide)
        (List.mem_append_right _ List.mem_cons_self)
  | wholeStepped hstep =>
    cases hcut
    exact not_mem_of_digits? hn (c := '*') (by decide) List.mem_cons_self
  | lastDay => exact absurd hslash (by decide)
  | nearestWeekday hfield h =>
    rcases List.mem_append.mp hslash with hmem | hmem
    · exact h.isSelection.not_mem (by decide) (by decide) hmem
    · exact absurd hmem (by decide)
  | marked hfield h hmark =>
    rcases List.mem_append.mp hslash with hmem | hmem
    · exact h.not_mem (by decide) (by decide) hmem
    · exact hmark.not_mem (by decide) (by decide) (by decide) hmem

namespace Element

variable {element : Element} {m n : Nat} {mark : Mark} {span : Span}

/-! ## What a field takes -/

/-- Whether a field takes every value that an element names, with its mark. -/
def Fits (field : Field) (element : Element) : Prop :=
  (element = .lastDay → field.supports element.mark.bits = true) ∧
    ∀ value ∈ element.values field,
      (field.min ≤ value ∧ value ≤ field.max) ∧ field.supports element.mark.bits = true

theorem fits_single_iff :
    Fits field (.single n mark) ↔
      (field.min ≤ n ∧ n ≤ field.max) ∧ field.supports mark.bits = true := by
  simp [Fits, values, Element.mark]

theorem fits_nearestWeekday_iff :
    Fits field (.nearestWeekday n) ↔
      (field.min ≤ n ∧ n ≤ field.max) ∧ field = .dayOfMonth := by
  have hsupports : field.supports Mark.nearestWeekday.bits = true ↔ field = .dayOfMonth := by
    cases field <;> decide
  simp [Fits, values, Element.mark, hsupports]

theorem fits_range (hmin : field.min ≤ m) (hmax : n ≤ field.max)
    (hmark : field.supports mark.bits = true) : Fits field (.range m n mark) := by
  refine ⟨nofun, fun value hvalue => ⟨?_, hmark⟩⟩
  have hrange := List.mem_range'_1.mp hvalue
  omega

/-- A step fits where its first value does, and where it has no value at all. -/
theorem fits_stepped_iff {step : Nat} (hstep : 0 < step) (hlast : span.last field ≤ field.max) :
    Fits field (.stepped span step) ↔
      (span.first field ≤ span.last field → field.min ≤ span.first field) := by
  constructor
  · intro h hle
    have hfirst : span.first field ∈ progression (span.first field) (span.last field) step :=
      (mem_progression hstep hlast).mpr ⟨hle, 0, by omega⟩
    exact (h.2 _ hfirst).1.1
  · intro h
    refine ⟨nofun, fun value hvalue => ⟨?_, field.supports_plain⟩⟩
    obtain ⟨hle, k, rfl⟩ := (mem_progression hstep hlast).mp hvalue
    have hmin := h (by omega)
    omega

/-! ## Marks -/

theorem exists_markText_of_isMark (h : IsMark text) :
    ∃ mark, MarkText .dayOfWeek text mark := by
  rcases h with rfl | rfl | ⟨count, n, rfl, hn, hle, hle'⟩
  · exact ⟨.last, .last⟩
  · exact ⟨.last, .numberedLast⟩
  · have hpred : n = n - 1 + 1 := by omega
    exact ⟨.nth ⟨n - 1, by omega⟩, .nth (hn.trans (congrArg some hpred))⟩

theorem isMark_of_markText (h : MarkText field text mark) :
    text = [] ∨ field = .dayOfWeek ∧ IsMark text := by
  cases h with
  | plain => exact .inl rfl
  | last => exact .inr ⟨rfl, .inl rfl⟩
  | numberedLast => exact .inr ⟨rfl, .inr (.inl rfl)⟩
  | @nth count k h => exact .inr ⟨rfl, .inr (.inr ⟨count, k.val + 1, rfl, h, by omega, by omega⟩)⟩

theorem supports_of_markText (h : MarkText field text mark) :
    field.supports mark.bits = true := by
  cases h with
  | plain => exact field.supports_plain
  | last | numberedLast => decide
  | @nth count k h =>
    have hall : ∀ k : Fin 5, Field.dayOfWeek.supports (Mark.nth k).bits = true := by decide
    exact hall k

/-! ## Elements -/

theorem isNumber_of_mem (h : digits? text = some n) (hn : n ≤ field.max) : IsNumber text n := by
  have hmax := field.max_le
  exact ⟨h, by omega⟩

/-- A selection with a mark after it is read, and fits its field. -/
theorem exists_denotes_of_isSelection {suffix : List Char} (h : IsSelection field text)
    (hmark : MarkText field suffix mark) :
    ∃ element, Denotes field (text ++ suffix) element ∧ Fits field element := by
  have hsupports := supports_of_markText hmark
  rcases h with ⟨n, hn, hmin, hmax⟩ | ⟨first, last, m, n, rfl, hm, hn, hmin, hle, hmax⟩
  · exact ⟨_, .single (isNumber_of_mem hn hmax) hmark,
      fits_single_iff.mpr ⟨⟨hmin, hmax⟩, hsupports⟩⟩
  · exact ⟨_, .range ⟨first, last, rfl, hm, hn, hmin, hle, hmax⟩ hmark,
      fits_range hmin hmax hsupports⟩

/-- Every element is read, and fits its field. -/
theorem exists_denotes_of_isElement (h : IsElement field text) :
    ∃ element, Denotes field text element ∧ Fits field element := by
  cases h with
  | plain h =>
    have hdenotes := exists_denotes_of_isSelection h .plain
    rwa [List.append_nil] at hdenotes
  | @stepped base step h hstep =>
    obtain ⟨k, hk, hpos, hle⟩ := hstep
    rcases h with ⟨n, hn, hmin, hmax⟩ | ⟨first, last, m, n, rfl, hm, hn, hmin, hle', hmax⟩
    · exact ⟨_, .steppedFrom (isNumber_of_mem hn hmax) ⟨hk, hle⟩ hpos,
        (fits_stepped_iff hpos (Nat.le_refl _)).mpr fun _ => hmin⟩
    · have hfits : Fits field (.stepped (.between m n) k) :=
        (fits_stepped_iff hpos (show (Span.between m n).last field ≤ field.max from hmax)).mpr
          fun _ => hmin
      exact ⟨_, .steppedBetween ⟨first, last, rfl, hm, hn, hmin, hle', hmax⟩ ⟨hk, hle⟩ hpos, hfits⟩
  | wholeStepped hstep =>
    obtain ⟨k, hk, hpos, hle⟩ := hstep
    exact ⟨_, .wholeStepped ⟨hk, hle⟩ hpos,
      (fits_stepped_iff hpos (Nat.le_refl _)).mpr fun _ => Nat.le_refl _⟩
  | lastDay hfield =>
    subst hfield
    exact ⟨.lastDay, .lastDay rfl, by decide, nofun⟩
  | nearestWeekday hfield h =>
    obtain ⟨n, hn, hmin, hmax⟩ := h
    exact ⟨_, .nearestWeekday (isNumber_of_mem hn hmax),
      fits_nearestWeekday_iff.mpr ⟨⟨hmin, hmax⟩, hfield⟩⟩
  | marked hfield h hmark =>
    subst hfield
    obtain ⟨mark, hmark⟩ := exists_markText_of_isMark hmark
    exact exists_denotes_of_isSelection h hmark

theorem exists_denotes_of_isOvershoot (h : IsOvershoot field text) :
    ∃ element, Denotes field text element ∧ Fits field element := by
  obtain ⟨first, step, n, rfl, hn, hover, hle, k, hk, hpos, hle'⟩ := h
  refine ⟨_, .steppedFrom ⟨hn, hle⟩ ⟨hk, hle'⟩ hpos, ?_⟩
  refine (fits_stepped_iff hpos (Nat.le_refl _)).mpr fun hreach => ?_
  exact absurd hreach (Nat.not_le_of_gt hover)

theorem isElement_append {suffix : List Char} (h : IsSelection field base)
    (hmark : MarkText field suffix mark) : IsElement field (base ++ suffix) := by
  rcases isMark_of_markText hmark with rfl | ⟨hfield, hmark⟩
  · rw [List.append_nil]
    exact .plain h
  · exact .marked hfield h hmark

/-- What is read and fits its field is an element, or a step from beyond the end. -/
theorem isElement_of_denotes (h : Denotes field text element) (hfits : Fits field element) :
    IsElement field text ∨ IsOvershoot field text := by
  cases h with
  | single h hmark =>
    exact .inl (isElement_append (.inl ⟨_, h.1, (fits_single_iff.mp hfits).1⟩) hmark)
  | @range bounds suffix m n mark h hmark =>
    obtain ⟨first, last, hrange⟩ := h
    exact .inl (isElement_append (.inr ⟨first, last, m, n, hrange⟩) hmark)
  | @wholeStepped step n hstep hpos => exact .inl (.wholeStepped ⟨n, hstep.1, hpos, hstep.2⟩)
  | @steppedFrom first step m n h hstep hpos =>
    have hstep : IsStep step := ⟨n, hstep.1, hpos, hstep.2⟩
    have hmin := (fits_stepped_iff hpos (Nat.le_refl _)).mp hfits
    by_cases hover : field.max < m
    · exact .inr ⟨first, step, m, rfl, h.1, hover, h.2, hstep⟩
    · have hmax := Nat.le_of_not_lt hover
      exact .inl (.stepped (.inl ⟨m, h.1, hmin hmax, hmax⟩) hstep)
  | @steppedBetween bounds step m last n h hstep hpos =>
    obtain ⟨first, last', hrange⟩ := h
    exact .inl (.stepped (.inr ⟨first, last', m, last, hrange⟩) ⟨n, hstep.1, hpos, hstep.2⟩)
  | lastDay hfield => exact .inl (.lastDay hfield)
  | nearestWeekday h =>
    obtain ⟨hbounds, hfield⟩ := fits_nearestWeekday_iff.mp hfits
    exact .inl (.nearestWeekday hfield ⟨_, h.1, hbounds⟩)

/-- The reader and the field together take the elements, and steps from beyond the end. -/
theorem exists_read_iff (hplus : '+' ∉ text) (hhash : '#' ∈ text → field = .dayOfWeek) :
    (∃ element, read field text = .ok element ∧ Fits field element) ↔
      IsElement field text ∨ IsOvershoot field text := by
  simp only [read_eq_ok_iff hplus hhash]
  constructor
  · rintro ⟨element, h, hfits⟩
    exact isElement_of_denotes h hfits
  · rintro (h | h)
    · exact exists_denotes_of_isElement h
    · exact exists_denotes_of_isOvershoot h

end Element
end CronSchedule
