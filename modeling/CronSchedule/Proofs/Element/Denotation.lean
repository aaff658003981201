import CronSchedule.Element.Reader
import CronSchedule.Proofs.Outcome
import Mathlib.Data.List.Basic

/-! # What the text of an element denotes

`Denotes` relates the text of an element to the element, form by form: a number or an
ascending range with the mark written after it, a step over a star, a range or what follows
a number, and the two day letters.  `Element.Says` is what an element so written says: which
values match, and how.  Neither mentions the reader, which finds exactly the element that a
text denotes (`read_eq_ok_iff`).
-/
namespace CronSchedule

/-! ## Texts -/

namespace Text

variable {text : List Char} {n limit : Nat}

theorem digits?_eq_some (h : digits? text = some n) : text ≠ [] ∧ ∀ c ∈ text, c.isDigit = true := by
  unfold digits? at h
  split at h
  · rename_i hdigits
    exact ⟨hdigits.1, List.all_eq_true.mp hdigits.2⟩
  · cases h

/-- A number holds nothing but digits. -/
theorem not_mem_of_digits? (h : digits? text = some n) {c : Char} (hc : c.isDigit = false) :
    c ∉ text := by
  intro hmem
  have := (digits?_eq_some h).2 c hmem
  rw [hc] at this
  cases this

theorem isSuffixOf?_eq_none {mark : Char} (h : mark ∉ text) : [mark].isSuffixOf? text = none := by
  refine Option.eq_none_iff_forall_ne_some.mpr fun left hleft => h ?_
  rw [← List.isSuffixOf?_eq_some_iff_append_eq.mp hleft]
  exact List.mem_append_right _ List.mem_cons_self

theorem numeralUpTo?_eq_some_iff (h : '+' ∉ text) :
    numeralUpTo? limit text = some n ↔ digits? text = some n ∧ n ≤ limit := by
  have hnumeral : numeral? text = digits? text := by
    unfold numeral?
    split
    · exact absurd List.mem_cons_self h
    · rfl
  rw [numeralUpTo?, hnumeral, Option.filter_eq_some_iff, decide_eq_true_eq]

end Text

open Text

/-! ## Forms -/

/-- The number that a text stands for in an element. -/
def IsNumber (text : List Char) (n : Nat) : Prop := digits? text = some n ∧ n ≤ 255

/-- The two numbers of a range, which ascends within its field. -/
def IsBounds (field : Field) (text : List Char) (m n : Nat) : Prop :=
  ∃ first last, text = first ++ '-' :: last ∧ digits? first = some m ∧ digits? last = some n ∧
    field.min ≤ m ∧ m ≤ n ∧ n ≤ field.max

/-- The mark that a text stands for after a number or a range.  Without a text they match
plainly; only weekdays have others. -/
inductive MarkText : Field → List Char → Mark → Prop
  | plain {field : Field} : MarkText field [] .plain
  | last : MarkText .dayOfWeek ['L'] .last
  | numberedLast : MarkText .dayOfWeek ['#', 'L'] .last
  | nth {count : List Char} {k : Fin 5} (h : digits? count = some (k.val + 1)) :
    MarkText .dayOfWeek ('#' :: count) (.nth k)

/-- The element that a text denotes in a field. -/
inductive Denotes (field : Field) : List Char → Element → Prop
  | single {number suffix : List Char} {n : Nat} {mark : Mark} (h : IsNumber number n)
    (hmark : MarkText field suffix mark) : Denotes field (number ++ suffix) (.single n mark)
  | range {bounds suffix : List Char} {m n : Nat} {mark : Mark} (h : IsBounds field bounds m n)
    (hmark : MarkText field suffix mark) : Denotes field (bounds ++ suffix) (.range m n mark)
  | wholeStepped {step : List Char} {n : Nat} (hstep : IsNumber step n) (hpos : 0 < n) :
    Denotes field ('*' :: '/' :: step) (.stepped .whole n)
  | steppedFrom {first step : List Char} {m n : Nat} (h : IsNumber first m)
    (hstep : IsNumber step n) (hpos : 0 < n) :
    Denotes field (first ++ '/' :: step) (.stepped (.upFrom m) n)
  | steppedBetween {bounds step : List Char} {m last n : Nat} (h : IsBounds field bounds m last)
    (hstep : IsNumber step n) (hpos : 0 < n) :
    Denotes field (bounds ++ '/' :: step) (.stepped (.between m last) n)
  | lastDay (hfield : field = .dayOfMonth) : Denotes field ['L'] .lastDay
  | nearestWeekday {day : List Char} {n : Nat} (h : IsNumber day n) :
    Denotes field (day ++ ['W']) (.nearestWeekday n)

/-- Whether an element says of a value that it matches in a way. -/
def Element.Says (field : Field) : Element → Nat → Mark → Prop
  | single n mark, value, how => value = n ∧ how = mark
  | range first last mark, value, how => (first ≤ value ∧ value ≤ last) ∧ how = mark
  | stepped span step, value, how =>
    ((∃ k, value = span.first field + step * k) ∧ value ≤ span.last field) ∧ how = .plain
  | nearestWeekday day, value, how => value = day ∧ how = .nearestWeekday
  | lastDay, _, _ => False

variable {field : Field} {text base suffix first last step : List Char} {m n : Nat} {mark : Mark}
  {element : Element} {c : Char}

theorem IsNumber.not_mem (h : IsNumber text n) (hc : c.isDigit = false) : c ∉ text :=
  not_mem_of_digits? h.1 hc

theorem IsNumber.ne_nil (h : IsNumber text n) : text ≠ [] := (digits?_eq_some h.1).1

/-- A range holds nothing but digits and a dash. -/
theorem IsBounds.not_mem (h : IsBounds field text m n) (hc : c.isDigit = false) (hdash : c ≠ '-') :
    c ∉ text := by
  obtain ⟨first, last, rfl, hm, hn, -⟩ := h
  rw [List.mem_append, List.mem_cons]
  rintro (hfirst | heq | hlast)
  · exact not_mem_of_digits? hm hc hfirst
  · exact hdash heq
  · exact not_mem_of_digits? hn hc hlast

theorem IsBounds.ne_nil (h : IsBounds field text m n) : text ≠ [] := by
  obtain ⟨first, last, rfl, -⟩ := h
  exact List.append_ne_nil_of_right_ne_nil _ (List.cons_ne_nil _ _)

/-- A mark holds nothing but digits and the two characters that start one. -/
theorem MarkText.not_mem (h : MarkText field text mark) (hc : c.isDigit = false) (hlast : c ≠ 'L')
    (hhash : c ≠ '#') : c ∉ text := by
  cases h with
  | plain => exact List.not_mem_nil
  | last => simp [hlast]
  | numberedLast => simp [hlast, hhash]
  | nth h =>
    rw [List.mem_cons, not_or]
    exact ⟨hhash, not_mem_of_digits? h hc⟩

namespace Element

/-! ## Numbers and bounds -/

theorem readNumber_eq_ok_iff (h : '+' ∉ text) : readNumber text = .ok n ↔ IsNumber text n := by
  rw [IsNumber, ← show byteLimit = 255 from rfl, ← numeralUpTo?_eq_some_iff h]
  unfold readNumber
  split
  · rename_i k hk
    rw [hk, Except.ok.injEq, Option.some.injEq]
  · rename_i hnone
    rw [hnone]
    simp

theorem readNumber_eq_ok (h : IsNumber text n) : readNumber text = .ok n :=
  (readNumber_eq_ok_iff (h.not_mem (by decide))).mpr h

theorem readBounds_eq_ok (hm : digits? first = some m) (hn : digits? last = some n)
    (hbounds : field.min ≤ m ∧ m ≤ n ∧ n ≤ field.max) :
    readBounds field first last = .ok (m, n) := by
  have hmax := field.max_le
  refine bind_eq_ok_iff.mpr ⟨m, readNumber_eq_ok ⟨hm, by omega⟩, ?_⟩
  refine bind_eq_ok_iff.mpr ⟨n, readNumber_eq_ok ⟨hn, by omega⟩, ?_⟩
  rw [if_neg (by omega), if_neg (by omega)]
  rfl

/-- What is cut at a dash and read as two bounds is a range. -/
theorem isBounds_of_readBounds (hplus : '+' ∉ text) (hcut : cutAt? '-' text = some (first, last))
    (h : readBounds field first last = .ok (m, n)) : IsBounds field text m n := by
  obtain ⟨rfl, -⟩ := cutAt?_eq_some_iff.mp hcut
  rw [List.mem_append, List.mem_cons, not_or, not_or] at hplus
  obtain ⟨a, ha, h⟩ := bind_eq_ok_iff.mp h
  obtain ⟨b, hb, h⟩ := bind_eq_ok_iff.mp h
  have hdigits := ((readNumber_eq_ok_iff hplus.1).mp ha).1
  have hdigits' := ((readNumber_eq_ok_iff hplus.2.2).mp hb).1
  split at h
  · cases h
  · split at h
    · cases h
    · cases h
      exact ⟨first, last, rfl, hdigits, hdigits', by omega, by omega, by omega⟩

theorem exists_cut_of_isBounds (h : IsBounds field text m n) :
    ∃ first last, cutAt? '-' text = some (first, last) ∧
      readBounds field first last = .ok (m, n) := by
  obtain ⟨first, last, rfl, hm, hn, hbounds⟩ := h
  refine ⟨first, last, ?_, readBounds_eq_ok hm hn hbounds⟩
  exact cutAt?_eq_some_iff.mpr ⟨rfl, not_mem_of_digits? hm (by decide)⟩

/-! ## Marks -/

theorem readMark_append (hhash : '#' ∉ base) (hlast : 'L' ∉ base)
    (h : MarkText field suffix mark) : readMark field (base ++ suffix) = .ok (base, mark) := by
  cases h with
  | plain =>
    rw [List.append_nil, readMark, cutAt?_eq_none_iff.mpr hhash, isSuffixOf?_eq_none hlast]
  | last =>
    have hcut : cutAt? '#' (base ++ ['L']) = none := by
      refine cutAt?_eq_none_iff.mpr fun hmem => ?_
      rcases List.mem_append.mp hmem with hmem | hmem
      · exact hhash hmem
      · exact absurd hmem (by decide)
    rw [readMark, hcut, List.isSuffixOf?_eq_some_iff_append_eq.mpr rfl]
    rfl
  | numberedLast =>
    rw [readMark, cutAt?_eq_some_iff.mpr ⟨rfl, hhash⟩]
    rfl
  | @nth count k h =>
    have hcount : count ≠ ['L'] := by
      rintro rfl
      exact not_mem_of_digits? h (by decide) List.mem_cons_self
    have hk : 1 ≤ k.val + 1 ∧ k.val + 1 ≤ 5 := by omega
    rw [readMark, cutAt?_eq_some_iff.mpr ⟨rfl, hhash⟩]
    simp only [hcount, if_false, readNumber_eq_ok ⟨h, by omega⟩]
    exact dif_pos hk

/-- Where a text has a mark, it is what follows the rest. -/
theorem exists_markText_of_readMark (hplus : '+' ∉ text) (hhash : '#' ∈ text → field = .dayOfWeek)
    (h : readMark field text = .ok (base, mark)) :
    ∃ suffix, text = base ++ suffix ∧ MarkText field suffix mark := by
  unfold readMark at h
  split at h
  · rename_i left count hcut
    obtain ⟨rfl, -⟩ := cutAt?_eq_some_iff.mp hcut
    obtain rfl := hhash (List.mem_append_right _ List.mem_cons_self)
    rw [List.mem_append, List.mem_cons, not_or, not_or] at hplus
    split at h
    · rename_i hcount
      cases h
      exact ⟨_, rfl, hcount ▸ .numberedLast⟩
    · obtain ⟨n, hn, h⟩ := bind_eq_ok_iff.mp h
      split at h
      · rename_i hle
        cases h
        have hdigits := ((readNumber_eq_ok_iff hplus.2.2).mp hn).1
        have hpred : n = n - 1 + 1 := by omega
        exact ⟨_, rfl, .nth (hdigits.trans (congrArg some hpred))⟩
      · cases h
  · split at h
    · rename_i left hstrip
      by_cases hfield : field = .dayOfWeek
      · rw [if_pos hfield] at h
        cases h
        exact ⟨['L'], (List.isSuffixOf?_eq_some_iff_append_eq.mp hstrip).symm, hfield ▸ .last⟩
      · rw [if_neg hfield] at h
        cases h
        exact ⟨[], (List.append_nil _).symm, .plain⟩
    · cases h
      exact ⟨[], (List.append_nil _).symm, .plain⟩

/-! ## Values and ranges with a mark -/

theorem readMarked_single (h : IsNumber base n) (hmark : MarkText field suffix mark) :
    readMarked field (base ++ suffix) = .ok (.single n mark) := by
  unfold readMarked
  rw [readMark_append (h.not_mem (by decide)) (h.not_mem (by decide)) hmark]
  simp only [bind, Except.bind, cutAt?_eq_none_iff.mpr (h.not_mem (c := '-') (by decide)),
    readNumber_eq_ok h]
  rfl

theorem readMarked_range (h : IsBounds field base m n) (hmark : MarkText field suffix mark) :
    readMarked field (base ++ suffix) = .ok (.range m n mark) := by
  obtain ⟨first, last, hcut, hread⟩ := exists_cut_of_isBounds h
  unfold readMarked
  rw [readMark_append (h.not_mem (by decide) (by decide)) (h.not_mem (by decide) (by decide)) hmark]
  simp only [bind, Except.bind, hcut, hread]
  rfl

theorem denotes_of_readMarked (hplus : '+' ∉ text) (hhash : '#' ∈ text → field = .dayOfWeek)
    (h : readMarked field text = .ok element) : Denotes field text element := by
  obtain ⟨⟨base, mark⟩, hmark, hrest⟩ := bind_eq_ok_iff.mp h
  obtain ⟨suffix, rfl, hsuffix⟩ := exists_markText_of_readMark hplus hhash hmark
  have hbase : '+' ∉ base := fun hmem => hplus (List.mem_append_left _ hmem)
  simp only at hrest
  split at hrest
  · rename_i first last hcut
    obtain ⟨⟨m, n⟩, hbounds, hrest⟩ := bind_eq_ok_iff.mp hrest
    cases hrest
    exact .range (isBounds_of_readBounds hbase hcut hbounds) hsuffix
  · obtain ⟨n, hn, hrest⟩ := bind_eq_ok_iff.mp hrest
    cases hrest
    exact .single ((readNumber_eq_ok_iff hbase).mp hn) hsuffix

/-! ## Steps -/

theorem readSpan_upFrom (h : IsNumber text n) : readSpan field text = .ok (.upFrom n) := by
  have hstar : text ≠ ['*'] := by
    rintro rfl
    exact h.not_mem (by decide) List.mem_cons_self
  unfold readSpan
  rw [if_neg hstar]
  simp only [bind, Except.bind, cutAt?_eq_none_iff.mpr (h.not_mem (c := '-') (by decide)),
    readNumber_eq_ok h]
  rfl

theorem readSpan_between (h : IsBounds field text m n) :
    readSpan field text = .ok (.between m n) := by
  obtain ⟨first, last, hcut, hread⟩ := exists_cut_of_isBounds h
  have hstar : text ≠ ['*'] := by
    rintro rfl
    cases hcut
  unfold readSpan
  rw [if_neg hstar]
  simp only [bind, Except.bind, hcut, hread]
  rfl

theorem readStepped_eq_ok {span : Span} (hspan : readSpan field text = .ok span)
    (hstep : IsNumber step n) (hpos : 0 < n) :
    readStepped field text step = .ok (.stepped span n) := by
  unfold readStepped
  simp only [bind, Except.bind, readNumber_eq_ok hstep, hspan]
  rw [if_neg (by omega)]
  rfl

theorem denotes_of_readStepped (hplus : '+' ∉ text) (hplus' : '+' ∉ step)
    (h : readStepped field text step = .ok element) :
    Denotes field (text ++ '/' :: step) element := by
  obtain ⟨n, hn, h⟩ := bind_eq_ok_iff.mp h
  have hstep := (readNumber_eq_ok_iff hplus').mp hn
  split at h
  · cases h
  · rename_i hzero
    have hpos := Nat.pos_of_ne_zero hzero
    obtain ⟨span, hspan, h⟩ := bind_eq_ok_iff.mp h
    cases h
    unfold readSpan at hspan
    split at hspan
    · rename_i hstar
      cases hspan
      exact hstar ▸ .wholeStepped hstep hpos
    · split at hspan
      · rename_i first last hcut
        obtain ⟨⟨a, b⟩, hbounds, hspan⟩ := bind_eq_ok_iff.mp hspan
        cases hspan
        exact .steppedBetween (isBounds_of_readBounds hplus hcut hbounds) hstep hpos
      · obtain ⟨m, hm, hspan⟩ := bind_eq_ok_iff.mp hspan
        cases hspan
        exact .steppedFrom ((readNumber_eq_ok_iff hplus).mp hm) hstep hpos

/-! ## Elements -/

/-- An element without a step or one of the day letters is a value or a range. -/
theorem read_eq_readMarked (hne : text ≠ []) (hslash : '/' ∉ text) (hlast : text ≠ ['L'])
    (hnearest : 'W' ∉ text) : read field text = readMarked field text := by
  unfold read
  rw [if_neg hne, cutAt?_eq_none_iff.mpr hslash, isSuffixOf?_eq_none hnearest]
  simp only [hlast, and_false, if_false, ite_self]

theorem read_stepped {span : List Char} (hslash : '/' ∉ span) :
    read field (span ++ '/' :: step) = readStepped field span step := by
  unfold read
  rw [if_neg (List.append_ne_nil_of_right_ne_nil _ (List.cons_ne_nil _ _)),
    cutAt?_eq_some_iff.mpr ⟨rfl, hslash⟩]

theorem read_nearestWeekday {day : List Char} (h : IsNumber day n) :
    read field (day ++ ['W']) = .ok (.nearestWeekday n) := by
  have hmem : ∀ {c : Char}, c.isDigit = false → c ≠ 'W' → c ∉ day ++ ['W'] := by
    intro c hc hne hmem
    rcases List.mem_append.mp hmem with hmem | hmem
    · exact h.not_mem hc hmem
    · exact hne (List.mem_singleton.mp hmem)
  have hlast : day ++ ['W'] ≠ ['L'] := by
    intro heq
    have hmem' : 'L' ∈ day ++ ['W'] := heq ▸ List.mem_cons_self
    exact hmem (by decide) (by decide) hmem'
  unfold read
  rw [if_neg (List.append_ne_nil_of_right_ne_nil _ (List.cons_ne_nil _ _)),
    cutAt?_eq_none_iff.mpr (hmem (by decide) (by decide)),
    List.isSuffixOf?_eq_some_iff_append_eq.mpr rfl]
  simp only [hmem (c := '-') (by decide) (by decide), hlast, and_false, if_false, bind, Except.bind,
    readNumber_eq_ok h]
  rfl

/-- What follows a number or a range as its mark keeps the text off the other forms. -/
theorem read_append (hne : base ≠ []) (hbase : ∀ c : Char, c.isDigit = false → c ≠ '-' → c ∉ base)
    (hmark : MarkText field suffix mark) :
    read field (base ++ suffix) = readMarked field (base ++ suffix) := by
  have hmem : ∀ {c : Char}, c.isDigit = false → c ≠ '-' → c ≠ 'L' → c ≠ '#' →
      c ∉ base ++ suffix := by
    intro c hc hdash hlast hhash hmem
    rcases List.mem_append.mp hmem with hmem | hmem
    · exact hbase c hc hdash hmem
    · exact hmark.not_mem hc hlast hhash hmem
  have hlast : base ++ suffix ≠ ['L'] := by
    intro heq
    obtain ⟨c, rest, rfl⟩ := List.exists_cons_of_ne_nil hne
    obtain ⟨rfl, -⟩ := List.cons.inj heq
    exact hbase 'L' (by decide) (by decide) List.mem_cons_self
  exact read_eq_readMarked (List.append_ne_nil_of_left_ne_nil hne _)
    (hmem (by decide) (by decide) (by decide) (by decide)) hlast
    (hmem (by decide) (by decide) (by decide) (by decide))

/-- What a text denotes is read. -/
theorem read_of_denotes (h : Denotes field text element) : read field text = .ok element := by
  cases h with
  | single h hmark =>
    rw [read_append h.ne_nil (fun c hc _ => h.not_mem hc) hmark]
    exact readMarked_single h hmark
  | range h hmark =>
    rw [read_append h.ne_nil (fun c hc hdash => h.not_mem hc hdash) hmark]
    exact readMarked_range h hmark
  | @wholeStepped step n hstep hpos =>
    have hslash : '/' ∉ ['*'] := by decide
    rw [show '*' :: '/' :: step = ['*'] ++ '/' :: step from rfl, read_stepped hslash]
    exact readStepped_eq_ok rfl hstep hpos
  | steppedFrom h hstep hpos =>
    rw [read_stepped (h.not_mem (by decide))]
    exact readStepped_eq_ok (readSpan_upFrom h) hstep hpos
  | steppedBetween h hstep hpos =>
    rw [read_stepped (h.not_mem (by decide) (by decide))]
    exact readStepped_eq_ok (readSpan_between h) hstep hpos
  | lastDay hfield =>
    subst hfield
    rfl
  | nearestWeekday h => exact read_nearestWeekday h

/-- What is read is what the text denotes. -/
theorem denotes_of_read (hplus : '+' ∉ text) (hhash : '#' ∈ text → field = .dayOfWeek)
    (h : read field text = .ok element) : Denotes field text element := by
  unfold read at h
  split at h
  · cases h
  · split at h
    · rename_i span step hcut
      obtain ⟨rfl, -⟩ := cutAt?_eq_some_iff.mp hcut
      rw [List.mem_append, List.mem_cons, not_or, not_or] at hplus
      exact denotes_of_readStepped hplus.1 hplus.2.2 h
    · split at h
      · exact denotes_of_readMarked hplus hhash h
      · split at h
        · rename_i hday
          cases h
          rw [hday.2]
          exact .lastDay hday.1
        · split at h
          · rename_i day hstrip
            obtain rfl := List.isSuffixOf?_eq_some_iff_append_eq.mp hstrip
            obtain ⟨n, hn, h⟩ := bind_eq_ok_iff.mp h
            cases h
            have hplus' : '+' ∉ day := fun hmem => hplus (List.mem_append_left _ hmem)
            exact .nearestWeekday ((readNumber_eq_ok_iff hplus').mp hn)
          · exact denotes_of_readMarked hplus hhash h

/-- A text of the characters of its field is read as the element that it denotes. -/
theorem read_eq_ok_iff (hplus : '+' ∉ text) (hhash : '#' ∈ text → field = .dayOfWeek) :
    read field text = .ok element ↔ Denotes field text element :=
  ⟨denotes_of_read hplus hhash, read_of_denotes⟩

end Element

/-- A text denotes one element at most. -/
theorem Denotes.unique {other : Element} (h : Denotes field text element)
    (hother : Denotes field text other) : element = other := by
  have hread := Element.read_of_denotes h
  rw [Element.read_of_denotes hother, Except.ok.injEq] at hread
  exact hread.symm

/-! ## Texts of one form -/

theorem MarkText.eq_plain (h : MarkText field suffix mark) (hlast : 'L' ∉ suffix)
    (hhash : '#' ∉ suffix) : suffix = [] ∧ mark = .plain := by
  cases h with
  | plain => exact ⟨rfl, rfl⟩
  | last => exact absurd List.mem_cons_self hlast
  | numberedLast | nth => exact absurd List.mem_cons_self hhash

/-- Digits denote a single value. -/
theorem Denotes.eq_single (h : Denotes field text element) (hn : digits? text = some n) :
    element = .single n .plain := by
  have hdigits : ∀ {left right : List Char} {c : Char}, text = left ++ c :: right →
      c.isDigit ≠ false := by
    rintro left right c rfl hc
    exact not_mem_of_digits? hn hc (List.mem_append_right _ List.mem_cons_self)
  cases h with
  | single h hmark =>
    have hfree : ∀ {c : Char}, c.isDigit = false → c ∉ _ := fun hc hmem =>
      not_mem_of_digits? hn hc (List.mem_append_right _ hmem)
    obtain ⟨rfl, rfl⟩ := hmark.eq_plain (hfree (by decide)) (hfree (by decide))
    rw [List.append_nil, h.1, Option.some.injEq] at hn
    rw [hn]
  | range h =>
    obtain ⟨first, last, rfl, -⟩ := h
    exact absurd (by decide) (hdigits (List.append_assoc ..))
  | wholeStepped => exact absurd (by decide) (hdigits (List.nil_append _).symm)
  | steppedFrom | steppedBetween => exact absurd (by decide) (hdigits rfl)
  | lastDay => exact absurd (by decide) (hdigits (List.nil_append _).symm)
  | nearestWeekday => exact absurd (by decide) (hdigits rfl)

/-- What ends with a `W` denotes the working day nearest to the number before it. -/
theorem Denotes.nearestWeekday_inv {day : List Char} (h : Denotes field (day ++ ['W']) element) :
    ∃ n, IsNumber day n ∧ element = .nearestWeekday n := by
  have hmem : 'W' ∈ day ++ ['W'] := List.mem_append_right _ List.mem_cons_self
  generalize htext : day ++ ['W'] = text at h hmem
  cases h with
  | single h hmark =>
    rcases List.mem_append.mp hmem with hmem | hmem
    · exact absurd hmem (h.not_mem (by decide))
    · exact absurd hmem (hmark.not_mem (by decide) (by decide) (by decide))
  | range h hmark =>
    rcases List.mem_append.mp hmem with hmem | hmem
    · exact absurd hmem (h.not_mem (by decide) (by decide))
    · exact absurd hmem (hmark.not_mem (by decide) (by decide) (by decide))
  | wholeStepped hstep =>
    simp [hstep.not_mem (c := 'W') (by decide)] at hmem
  | steppedFrom h hstep =>
    simp [h.not_mem (c := 'W') (by decide), hstep.not_mem (c := 'W') (by decide)] at hmem
  | steppedBetween h hstep =>
    simp [h.not_mem (c := 'W') (by decide) (by decide),
      hstep.not_mem (c := 'W') (by decide)] at hmem
  | lastDay => exact absurd hmem (by decide)
  | @nearestWeekday number n h =>
    obtain rfl := List.append_cancel_right htext
    exact ⟨n, h, rfl⟩

/-- Only a range holds a dash.  What follows it is a mark or a step. -/
theorem Denotes.dash_inv (h : Denotes field text element) (hdash : '-' ∈ text) :
    ∃ bounds rest m n, text = bounds ++ rest ∧ IsBounds field bounds m n ∧
      ((∃ mark, MarkText field rest mark ∧ element = .range m n mark) ∨
        ∃ step count, rest = '/' :: step ∧ IsNumber step count ∧ 0 < count ∧
          element = .stepped (.between m n) count) := by
  cases h with
  | single h hmark =>
    rcases List.mem_append.mp hdash with hmem | hmem
    · exact absurd hmem (h.not_mem (by decide))
    · exact absurd hmem (hmark.not_mem (by decide) (by decide) (by decide))
  | range h hmark => exact ⟨_, _, _, _, rfl, h, .inl ⟨_, hmark, rfl⟩⟩
  | wholeStepped hstep =>
    simp [hstep.not_mem (c := '-') (by decide)] at hdash
  | steppedFrom h hstep =>
    simp [h.not_mem (c := '-') (by decide), hstep.not_mem (c := '-') (by decide)] at hdash
  | steppedBetween h hstep hpos =>
    exact ⟨_, _, _, _, rfl, h, .inr ⟨_, _, rfl, hstep, hpos, rfl⟩⟩
  | lastDay => exact absurd hdash (by decide)
  | nearestWeekday h =>
    rcases List.mem_append.mp hdash with hmem | hmem
    · exact absurd hmem (h.not_mem (by decide))
    · exact absurd hmem (by decide)

/-- A range does not leave its field. -/
theorem Denotes.range_le_max (h : Denotes field text (.range m n mark)) : n ≤ field.max := by
  cases h with
  | range h =>
    obtain ⟨first, last, -, -, -, -, -, hmax⟩ := h
    exact hmax

/-- Two values with a dash between them denote a range, with the mark of the second. -/
theorem Denotes.range_inv (h : Denotes field (first ++ '-' :: last) element) (hfirst : '-' ∉ first)
    (hslash : '/' ∉ first ++ '-' :: last) :
    ∃ m n mark, digits? first = some m ∧ Denotes field last (.single n mark) ∧ m ≤ n ∧
      element = .range m n mark := by
  obtain ⟨bounds, rest, m, n, htext, ⟨left, right, rfl, hm, hn, hmin, hle, hmax⟩, hrest⟩ :=
    h.dash_inv (List.mem_append_right _ List.mem_cons_self)
  rcases hrest with ⟨mark, hmark, rfl⟩ | ⟨step, count, rfl, -⟩
  · rw [List.append_assoc, List.cons_append] at htext
    obtain ⟨rfl, rfl⟩ := append_cons_inj hfirst (not_mem_of_digits? hm (by decide)) htext
    have hlimit := field.max_le
    exact ⟨m, n, mark, hm, .single ⟨hn, by omega⟩ hmark, hle, rfl⟩
  · rw [htext] at hslash
    exact absurd (List.mem_append_right _ List.mem_cons_self) hslash

/-- A step is over the whole field, from a value on, or over a range. -/
theorem Denotes.step_inv (h : Denotes field (base ++ '/' :: step) element) (hbase : '/' ∉ base) :
    ∃ n, IsNumber step n ∧ 0 < n ∧
      (base = ['*'] ∧ element = .stepped .whole n ∨
        (∃ m, Denotes field base (.single m .plain) ∧ element = .stepped (.upFrom m) n) ∨
        ∃ m last, Denotes field base (.range m last .plain) ∧
          element = .stepped (.between m last) n) := by
  have hslash : '/' ∈ base ++ '/' :: step := List.mem_append_right _ List.mem_cons_self
  generalize htext : base ++ '/' :: step = text at h hslash
  cases h with
  | single h hmark =>
    rcases List.mem_append.mp hslash with hmem | hmem
    · exact absurd hmem (h.not_mem (by decide))
    · exact absurd hmem (hmark.not_mem (by decide) (by decide) (by decide))
  | range h hmark =>
    rcases List.mem_append.mp hslash with hmem | hmem
    · exact absurd hmem (h.not_mem (by decide) (by decide))
    · exact absurd hmem (hmark.not_mem (by decide) (by decide) (by decide))
  | @wholeStepped count n hstep hpos =>
    obtain ⟨rfl, rfl⟩ := append_cons_inj hbase (show '/' ∉ ['*'] by decide) htext
    exact ⟨n, hstep, hpos, .inl ⟨rfl, rfl⟩⟩
  | @steppedFrom first count m n h hstep hpos =>
    obtain ⟨rfl, rfl⟩ := append_cons_inj hbase (h.not_mem (by decide)) htext
    have hsingle : Denotes field (base ++ []) (.single m .plain) := .single h .plain
    rw [List.append_nil] at hsingle
    exact ⟨n, hstep, hpos, .inr (.inl ⟨m, hsingle, rfl⟩)⟩
  | @steppedBetween bounds count m last n h hstep hpos =>
    obtain ⟨rfl, rfl⟩ := append_cons_inj hbase (h.not_mem (by decide) (by decide)) htext
    have hrange : Denotes field (base ++ []) (.range m last .plain) := .range h .plain
    rw [List.append_nil] at hrange
    exact ⟨n, hstep, hpos, .inr (.inr ⟨m, last, hrange, rfl⟩)⟩
  | lastDay => exact absurd hslash (by decide)
  | nearestWeekday h =>
    rcases List.mem_append.mp hslash with hmem | hmem
    · exact absurd hmem (h.not_mem (by decide))
    · exact absurd hmem (by decide)

/-! ## Values -/

/-- An element says of the values it names that they match the way of its mark, and
nothing else. -/
theorem Denotes.says_iff (h : Denotes field text element) {value : Nat} {how : Mark} :
    element.Says field value how ↔ value ∈ element.values field ∧ how = element.mark := by
  have hstepped : ∀ {span : Span} {step : Nat}, 0 < step → span.last field ≤ field.max →
      (Element.Says field (.stepped span step) value how ↔
        value ∈ (Element.stepped span step).values field ∧ how = .plain) := by
    intro span step hpos hlast
    rw [Element.Says, Element.values, mem_progression hpos hlast, and_comm (b := value ≤ _)]
  cases h with
  | single => rw [Element.Says, Element.values, List.mem_singleton]; rfl
  | range =>
    rw [Element.Says, Element.values, List.mem_range'_1]
    exact and_congr_left fun _ => by omega
  | wholeStepped hstep hpos | steppedFrom h hstep hpos => exact hstepped hpos (Nat.le_refl _)
  | steppedBetween h hstep hpos =>
    obtain ⟨first, last, -, -, -, -, -, hmax⟩ := h
    exact hstepped hpos hmax
  | lastDay => exact ⟨False.elim, fun hmem => absurd hmem.1 List.not_mem_nil⟩
  | nearestWeekday => rw [Element.Says, Element.values, List.mem_singleton]; rfl

end CronSchedule
