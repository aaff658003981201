import CronSchedule.Explanation.Basic
import CronSchedule.Proofs.Element.Denotation
import CronSchedule.Proofs.Field.Naming

/-! # Reading a phrase back

An English phrase shows a field the way it is written, with names in place of numbers.  A
value of it can be found again in the phrase, as the characters that follow it never occur
in one (`append_inj_of_stops`).  Values that are shown alike are the same text or stand for
the same number (`alike_of_shown`), and so are the parts of elements (`ElementAlike`) and of
ranges that are shown alike.

`Shown` is the view of a field that its phrase gives: what the phrase starts with and what
it goes on with.
-/
namespace CronSchedule

/-! ## Texts side by side -/

namespace Text

variable {text left right left' right' : List Char} {pieces pieces' : List (List Char)}

/-- Two texts end at the same place when what follows them starts with a character that
neither of them holds. -/
theorem append_inj_of_stops {stops : List Char} (hleft : ∀ c ∈ left, c ∉ stops)
    (hleft' : ∀ c ∈ left', c ∉ stops) (hright : ∀ c ∈ right.head?, c ∈ stops)
    (hright' : ∀ c ∈ right'.head?, c ∈ stops) (h : left ++ right = left' ++ right') :
    left = left' ∧ right = right' := by
  induction left generalizing left' with
  | nil =>
    cases left' with
    | nil => exact ⟨rfl, h⟩
    | cons c left' =>
      rw [List.nil_append] at h
      subst h
      exact absurd (hright c rfl) (hleft' c List.mem_cons_self)
  | cons c left ih =>
    cases left' with
    | nil =>
      rw [List.nil_append] at h
      subst h
      exact absurd (hright' c rfl) (hleft c List.mem_cons_self)
    | cons d left' =>
      obtain ⟨rfl, htail⟩ := List.cons.inj h
      obtain ⟨rfl, hrest⟩ := ih (fun e he => hleft e (List.mem_cons_of_mem _ he))
        (fun e he => hleft' e (List.mem_cons_of_mem _ he)) htail
      exact ⟨rfl, hrest⟩

/-- Pieces without a comma can be told apart when they are joined. -/
theorem intercalate_inj (hne : pieces ≠ []) (hne' : pieces' ≠ [])
    (hpieces : ∀ piece ∈ pieces, ',' ∉ piece) (hpieces' : ∀ piece ∈ pieces', ',' ∉ piece)
    (h : [',', ' '].intercalate pieces = [',', ' '].intercalate pieces') : pieces = pieces' := by
  induction pieces generalizing pieces' with
  | nil => exact absurd rfl hne
  | cons piece rest ih =>
    obtain ⟨piece', rest', rfl⟩ := List.exists_cons_of_ne_nil hne'
    have hpiece := hpieces piece List.mem_cons_self
    have hpiece' := hpieces' piece' List.mem_cons_self
    cases rest with
    | nil =>
      cases rest' with
      | nil => simpa using h
      | cons next' more' =>
        rw [List.intercalate_singleton, List.intercalate_cons_cons] at h
        exact absurd (by simp [h]) hpiece
    | cons next more =>
      cases rest' with
      | nil =>
        rw [List.intercalate_singleton, List.intercalate_cons_cons] at h
        exact absurd (by simp [← h]) hpiece'
      | cons next' more' =>
        rw [List.intercalate_cons_cons, List.intercalate_cons_cons, List.append_assoc,
          List.append_assoc] at h
        obtain ⟨rfl, htail⟩ := append_cons_inj hpiece hpiece' h
        have hrest := ih (List.cons_ne_nil _ _) (List.cons_ne_nil _ _)
          (fun p hp => hpieces p (List.mem_cons_of_mem _ hp))
          (fun p hp => hpieces' p (List.mem_cons_of_mem _ hp)) (List.cons.inj htail).2
        rw [hrest]

/-- Lists that are alike member by member are so in any way that follows from it. -/
theorem map_eq_map_of_imp {α β γ : Type} {f : α → β} {g : α → γ} {items items' : List α}
    (h : items.map f = items'.map f)
    (himp : ∀ a ∈ items, ∀ b ∈ items', f a = f b → g a = g b) : items.map g = items'.map g := by
  induction items generalizing items' with
  | nil =>
    obtain rfl := List.map_eq_nil_iff.mp h.symm
    rfl
  | cons a items ih =>
    obtain ⟨b, items', rfl, hfirst, hrest⟩ := List.map_eq_cons_iff.mp h.symm
    rw [List.map_cons, List.map_cons, himp a List.mem_cons_self b List.mem_cons_self hfirst.symm,
      ih hrest.symm fun c hc d hd =>
        himp c (List.mem_cons_of_mem _ hc) d (List.mem_cons_of_mem _ hd)]

/-- Whether a text is a lone star or question mark. -/
def IsLone (text : List Char) : Prop := text = ['*'] ∨ text = ['?']

theorem not_isLone_of_mem {c : Char} (h : c ∈ text) (hc : c ∉ ['*', '?']) : ¬ IsLone text := by
  rintro (rfl | rfl)
  · exact hc (List.mem_cons.mpr (.inl (List.mem_singleton.mp h)))
  · exact hc (List.mem_cons_of_mem _ h)

theorem not_mem_decimal {c : Char} (hc : c.isDigit = false) (n : Nat) : c ∉ decimal n :=
  not_mem_of_digits? (digits?_decimal n) hc

end Text

open Text

/-! ## Values -/

namespace Field

variable {field : Field} {text left right : List Char} {c : Char}

/-- Whether a text holds only what its field allows once its names are replaced. -/
def Legible (field : Field) (text : List Char) : Prop :=
  ∀ c ∈ field.renumber (upper text), field.allows c = true

theorem legible_append_cons (h : field.Separates c) (hc : c.toUpper = c)
    (hlegible : field.Legible (left ++ c :: right)) : field.Legible left ∧ field.Legible right := by
  unfold Legible at hlegible
  rw [upper, List.map_append, List.map_cons, hc, renumber_append_cons h] at hlegible
  exact ⟨fun d hd => hlegible d (List.mem_append_left _ hd),
    fun d hd => hlegible d (List.mem_append_right _ (List.mem_cons_of_mem _ hd))⟩

/-- A legible text holds no character that its field does not allow and no name holds. -/
theorem Legible.not_mem (h : field.Legible text) (hc : field.Separates c) (hupper : c.toUpper = c)
    (hallows : field.allows c = false) : c ∉ text := by
  intro hmem
  have hin : c ∈ upper text := hupper ▸ List.mem_map_of_mem hmem
  rw [h c (mem_renumber_of_mem hc hin)] at hallows
  cases hallows

end Field

namespace Language

variable {field : Field} {text text' : List Char} {name : String} {m n : Nat} {c : Char}

/-- The characters that show a value in English. -/
def shown (field : Field) (text : List Char) : List Char := (english.value field text).toList

theorem shown_cases (field : Field) (text : List Char) :
    (∃ n name, numberOf? field text = some n ∧ english.nameOf? field n = some name ∧
      shown field text = name.toList) ∨ shown field text = text := by
  unfold shown value
  cases hnumber : numberOf? field text with
  | none => exact .inr String.toList_ofList
  | some n =>
    cases hname : english.nameOf? field n with
    | none => exact .inr (by simp [hname])
    | some name => exact .inl ⟨n, name, rfl, hname, by simp [hname]⟩

/-- Every number with a name is small, so what holds of the names can be checked. -/
theorem lt_of_nameOf? (h : english.nameOf? field n = some name) : n < 13 := by
  cases field with
  | month =>
    change (if n = 0 then none else english.monthNames[n - 1]?) = some name at h
    split at h
    · cases h
    · have hlt : n - 1 < 12 := (List.getElem?_eq_some_iff.mp h).1
      omega
  | dayOfWeek =>
    have hlt : n < 7 := (List.getElem?_eq_some_iff.mp h).1
    omega
  | _ => cases h

theorem nameOf?_inj (hm : english.nameOf? field m = some name)
    (hn : english.nameOf? field n = some name) : m = n := by
  have hall : ∀ field : Field, field ∈ Field.all → ∀ m < 13, ∀ n < 13,
      (english.nameOf? field m).isSome → english.nameOf? field m = english.nameOf? field n →
        m = n := by
    decide
  exact hall field field.mem_all m (lt_of_nameOf? hm) n (lt_of_nameOf? hn) (by rw [hm]; rfl)
    (hm.trans hn.symm)

/-- A name holds letters alone. -/
theorem isAlpha_of_mem_name (h : english.nameOf? field n = some name) (hc : c ∈ name.toList) :
    c.isAlpha = true := by
  have hall : ∀ field ∈ Field.all, ∀ n < 13, ∀ name ∈ english.nameOf? field n,
      name.toList.all Char.isAlpha = true := by
    decide
  exact List.all_eq_true.mp (hall field field.mem_all n (lt_of_nameOf? h) name h) c hc

/-- Among the names that are shown only those of three letters can be written as well. -/
theorem numberOf?_name (h : english.nameOf? field n = some name)
    (hlegible : field.Legible name.toList) : numberOf? field name.toList = some n := by
  have hall : ∀ field ∈ Field.all, ∀ n < 13, ∀ name ∈ english.nameOf? field n,
      (field.renumber (upper name.toList)).all field.allows = true →
        numberOf? field name.toList = some n := by
    decide
  exact hall field field.mem_all n (lt_of_nameOf? h) name h (List.all_eq_true.mpr hlegible)

/-- Whether two values are the same text or stand for the same number. -/
def Alike (field : Field) (text text' : List Char) : Prop :=
  text = text' ∨ ∃ n, numberOf? field text = some n ∧ numberOf? field text' = some n

/-- Values that are shown alike are alike. -/
theorem alike_of_shown (h : field.Legible text) (h' : field.Legible text')
    (heq : shown field text = shown field text') : Alike field text text' := by
  rcases shown_cases field text with ⟨m, name, hm, hname, hshown⟩ | hshown
  · rcases shown_cases field text' with ⟨n, name', hn, hname', hshown'⟩ | hshown'
    · rw [hshown, hshown'] at heq
      obtain rfl := String.toList_inj.mp heq
      obtain rfl := nameOf?_inj hname hname'
      exact .inr ⟨m, hm, hn⟩
    · rw [hshown, hshown'] at heq
      subst heq
      exact .inr ⟨m, hm, numberOf?_name hname h'⟩
  · rcases shown_cases field text' with ⟨n, name', hn, hname', hshown'⟩ | hshown'
    · rw [hshown, hshown'] at heq
      subst heq
      exact .inr ⟨n, numberOf?_name hname' h, hn⟩
    · rw [hshown, hshown'] at heq
      exact .inl heq

theorem mem_shown (h : c ∈ shown field text) : c ∈ text ∨ c.isAlpha = true := by
  rcases shown_cases field text with ⟨n, name, -, hname, hshown⟩ | hshown
  · rw [hshown] at h
    exact .inr (isAlpha_of_mem_name hname h)
  · rw [hshown] at h
    exact .inl h

theorem not_mem_shown (hc : c.isAlpha = false) (h : c ∉ text) : c ∉ shown field text := by
  intro hmem
  rcases mem_shown hmem with hmem | halpha
  · exact h hmem
  · rw [hc] at halpha
    cases halpha

/-! ## Phrases as characters -/

theorem toList_everyUnit (unit : String) :
    (english.everyUnit unit).toList = "Every ".toList ++ unit.toList := by
  simp [english, ToString.toString]

theorem toList_everyUnits (n : Nat) (unit : String) :
    (english.everyUnits n unit).toList =
      "Every ".toList ++ (decimal n ++ ' ' :: (unit.toList ++ ['s'])) := by
  simp [english, decimal, ToString.toString]

theorem toList_fromTo (first last : String) :
    (english.fromTo first last).toList =
      "From ".toList ++ (first.toList ++ (" to ".toList ++ last.toList)) := by
  simp [english, ToString.toString]

theorem toList_upFrom (first : String) :
    (english.upFrom first).toList = "From ".toList ++ first.toList := by
  simp [english, ToString.toString]

theorem toList_withStep (phrase unit : String) (n : Nat) :
    (english.withStep phrase n unit).toList =
      phrase.toList ++ (", every ".toList ++ (decimal n ++ ' ' :: (unit.toList ++ ['s']))) := by
  simp [english, decimal, ToString.toString]

theorem toList_atPhrase (phrase : String) :
    (english.atPhrase phrase).toList = "At ".toList ++ phrase.toList := by
  simp [english, ToString.toString]

theorem toList_listRange (first last : String) :
    (english.listRange first last).toList = first.toList ++ (['-'] ++ last.toList) := by
  simp [english, ToString.toString]

/-! ## Spans and elements -/

/-- Whether two texts without a step are alike, value by value. -/
inductive SpanAlike (field : Field) : List Char → List Char → Prop
  | single {text text' : List Char} (hdash : '-' ∉ text) (hdash' : '-' ∉ text')
    (h : Alike field text text') : SpanAlike field text text'
  | range {first last first' last' : List Char} (hdash : '-' ∉ first) (hdash' : '-' ∉ first')
    (hfirst : Alike field first first') (hlast : Alike field last last') :
    SpanAlike field (first ++ '-' :: last) (first' ++ '-' :: last')

/-- Whether two elements are alike, value by value and with the same step. -/
inductive ElementAlike (field : Field) : List Char → List Char → Prop
  | span {text text' : List Char} (hslash : '/' ∉ text) (hslash' : '/' ∉ text')
    (h : SpanAlike field text text') : ElementAlike field text text'
  | stepped {span span' : List Char} (step : List Char) (hslash : '/' ∉ span)
    (hslash' : '/' ∉ span') (h : SpanAlike field span span') :
    ElementAlike field (span ++ '/' :: step) (span' ++ '/' :: step)

/-- The characters that show a span, with a word between its two values. -/
def shownSpan (field : Field) (word text : List Char) : List Char :=
  match cutAt? '-' text with
  | some (first, last) => shown field first ++ (word ++ shown field last)
  | none => shown field text

theorem shownSpan_range {first last word rest : List Char} (h : '-' ∉ first) :
    shownSpan field word (first ++ '-' :: last) ++ rest =
      shown field first ++ (word ++ (shown field last ++ rest)) := by
  rw [shownSpan, cutAt?_eq_some_iff.mpr ⟨rfl, h⟩, List.append_assoc, List.append_assoc]

theorem shownSpan_single {word : List Char} (h : '-' ∉ text) :
    shownSpan field word text = shown field text := by
  rw [shownSpan, cutAt?_eq_none_iff.mpr h]

theorem toList_listElement (field : Field) (element : List Char) :
    (english.listElement field element).toList =
      match cutAt? '/' element with
      | some (span, step) => shownSpan field ['-'] span ++ '/' :: step
      | none => shownSpan field ['-'] element := by
  have hspan : ∀ text : List Char,
      (match cutAt? '-' text with
        | some (first, last) =>
          english.listRange (english.value field first) (english.value field last)
        | none => english.value field text).toList = shownSpan field ['-'] text := by
    intro text
    unfold shownSpan
    cases cutAt? '-' text with
    | none => rfl
    | some sides => exact toList_listRange _ _
  unfold listElement
  cases cutAt? '/' element with
  | none => exact hspan element
  | some sides =>
    show (_ ++ "/" ++ String.ofList sides.2).toList =
      shownSpan field ['-'] sides.1 ++ '/' :: sides.2
    simp only [String.toList_append, String.toList_ofList, List.append_assoc]
    exact congrArg (· ++ '/' :: sides.2) (hspan sides.1)

/-- A span that is shown holds no separator that it was not written with. -/
theorem not_mem_shownSpan {word : List Char} (hc : c.isAlpha = false) (hword : c ∉ word)
    (h : c ∉ text) : c ∉ shownSpan field word text := by
  unfold shownSpan
  split
  · rename_i first last hcut
    obtain ⟨rfl, -⟩ := cutAt?_eq_some_iff.mp hcut
    rw [List.mem_append, List.mem_cons, not_or, not_or] at h
    rw [List.mem_append, List.mem_append, not_or, not_or]
    exact ⟨not_mem_shown hc h.1, hword, not_mem_shown hc h.2.2⟩
  · exact not_mem_shown hc h

/-- Whether none of some characters, all of them no letters, occurs in a value. -/
def Lacks (stops value : List Char) : Prop := ∀ c ∈ stops, c.isAlpha = false ∧ c ∉ value

theorem lacks_singleton (hc : c.isAlpha = false) (h : c ∉ text) : Lacks [c] text := by
  intro d hd
  obtain rfl := List.mem_singleton.mp hd
  exact ⟨hc, h⟩

theorem Lacks.sides {stops left right : List Char} (h : Lacks stops (left ++ c :: right)) :
    Lacks stops left ∧ Lacks stops right :=
  ⟨fun d hd => ⟨(h d hd).1, fun hmem => (h d hd).2 (List.mem_append_left _ hmem)⟩,
    fun d hd => ⟨(h d hd).1, fun hmem =>
      (h d hd).2 (List.mem_append_right _ (List.mem_cons_of_mem _ hmem))⟩⟩

/-- A value without a dash lacks a dash, or what it is known to lack in the place of one. -/
theorem Lacks.cons {mark : Char} {stops : List Char} (h : Lacks stops text) (hdash : '-' ∉ text)
    (hmark : mark = '-' ∨ Lacks [mark] text) : Lacks (mark :: stops) text := by
  intro c hc
  rcases List.mem_cons.mp hc with rfl | hc
  · rcases hmark with rfl | hmark
    · exact ⟨by decide, hdash⟩
    · exact hmark c List.mem_cons_self
  · exact h c hc

/-- A value is shown up to the first character that it lacks. -/
theorem shown_append_inj {stops right right' : List Char} (h : Lacks stops text)
    (h' : Lacks stops text') (hright : ∀ c ∈ right.head?, c ∈ stops)
    (hright' : ∀ c ∈ right'.head?, c ∈ stops)
    (heq : shown field text ++ right = shown field text' ++ right') :
    shown field text = shown field text' ∧ right = right' :=
  append_inj_of_stops (fun c hc hmem => not_mem_shown (h c hmem).1 (h c hmem).2 hc)
    (fun c hc hmem => not_mem_shown (h' c hmem).1 (h' c hmem).2 hc) hright hright' heq

/-- Spans that are shown alike are alike, when the values lack the character that starts the
word between them and those that can start the rest. -/
theorem spanAlike_of_shownSpan {mark : Char} {word stops rest rest' : List Char}
    (h : field.Legible text) (h' : field.Legible text')
    (hmark : mark = '-' ∨ Lacks [mark] text ∧ Lacks [mark] text') (hword : mark ∉ stops)
    (hstops : Lacks stops text) (hstops' : Lacks stops text')
    (hrest : ∀ c ∈ rest.head?, c ∈ stops) (hrest' : ∀ c ∈ rest'.head?, c ∈ stops)
    (heq : shownSpan field (mark :: word) text ++ rest =
      shownSpan field (mark :: word) text' ++ rest') :
    SpanAlike field text text' ∧ rest = rest' := by
  have hnext : ∀ {tail : List Char}, (∀ c ∈ tail.head?, c ∈ stops) →
      ∀ c ∈ tail.head?, c ∈ mark :: stops := fun htail c hc => List.mem_cons_of_mem _ (htail c hc)
  have hbetween : ∀ tail : List Char, ∀ c ∈ (mark :: tail).head?, c ∈ mark :: stops := by
    rintro tail c hc
    obtain rfl := Option.some.inj hc
    exact List.mem_cons_self
  by_cases hdash : '-' ∈ text
  · obtain ⟨first, last, rfl, hfirst⟩ := List.eq_append_cons_of_mem hdash
    obtain ⟨hfree, hfree'⟩ := hstops.sides
    have hsep := Field.legible_append_cons field.separates_dash (by decide) h
    rw [shownSpan_range hfirst] at heq
    have hlead := hfree.cons hfirst (hmark.imp_right fun hboth => hboth.1.sides.1)
    by_cases hdash' : '-' ∈ text'
    · obtain ⟨first', last', rfl, hfirst'⟩ := List.eq_append_cons_of_mem hdash'
      obtain ⟨hfree₂, hfree₂'⟩ := hstops'.sides
      have hsep' := Field.legible_append_cons field.separates_dash (by decide) h'
      rw [shownSpan_range hfirst'] at heq
      have hlead' := hfree₂.cons hfirst' (hmark.imp_right fun hboth => hboth.2.sides.1)
      obtain ⟨hfirsts, heq⟩ := shown_append_inj hlead hlead' (hbetween _) (hbetween _) heq
      obtain ⟨hlasts, heq⟩ := shown_append_inj hfree' hfree₂' hrest hrest'
        (List.append_cancel_left (List.cons.inj heq).2)
      exact ⟨.range hfirst hfirst' (alike_of_shown hsep.1 hsep'.1 hfirsts)
        (alike_of_shown hsep.2 hsep'.2 hlasts), heq⟩
    · rw [shownSpan_single hdash'] at heq
      have hlead' := hstops'.cons hdash' (hmark.imp_right And.right)
      obtain ⟨-, rfl⟩ := shown_append_inj hlead hlead' (hbetween _) (hnext hrest') heq
      exact absurd (hrest' mark rfl) hword
  · rw [shownSpan_single hdash] at heq
    have hlead := hstops.cons hdash (hmark.imp_right And.left)
    by_cases hdash' : '-' ∈ text'
    · obtain ⟨first', last', rfl, hfirst'⟩ := List.eq_append_cons_of_mem hdash'
      rw [shownSpan_range hfirst'] at heq
      have hlead' := hstops'.sides.1.cons hfirst' (hmark.imp_right fun hboth => hboth.2.sides.1)
      obtain ⟨-, rfl⟩ := shown_append_inj hlead hlead' (hnext hrest) (hbetween _) heq
      exact absurd (hrest mark rfl) hword
    · rw [shownSpan_single hdash'] at heq
      obtain ⟨hvalues, heq⟩ := shown_append_inj hstops hstops' hrest hrest' heq
      exact ⟨.single hdash hdash' (alike_of_shown h h' hvalues), heq⟩

/-- An element is a span, perhaps with a step after it, and is shown that way. -/
theorem exists_span (field : Field) (element : List Char) :
    ∃ span rest, element = span ++ rest ∧ '/' ∉ span ∧ (rest = [] ∨ ∃ step, rest = '/' :: step) ∧
      (english.listElement field element).toList = shownSpan field ['-'] span ++ rest := by
  rw [toList_listElement]
  by_cases hslash : '/' ∈ element
  · obtain ⟨span, step, rfl, hspan⟩ := List.eq_append_cons_of_mem hslash
    rw [cutAt?_eq_some_iff.mpr ⟨rfl, hspan⟩]
    exact ⟨span, '/' :: step, rfl, hspan, .inr ⟨step, rfl⟩, rfl⟩
  · rw [cutAt?_eq_none_iff.mpr hslash]
    exact ⟨element, [], (List.append_nil _).symm, hslash, .inl rfl, (List.append_nil _).symm⟩

theorem comma_not_mem_listElement (h : ',' ∉ text) :
    ',' ∉ (english.listElement field text).toList := by
  obtain ⟨span, rest, rfl, -, -, hshown⟩ := exists_span field text
  rw [List.mem_append, not_or] at h
  rw [hshown, List.mem_append, not_or]
  exact ⟨not_mem_shownSpan (by decide) (by decide) h.1, h.2⟩

theorem legible_span {rest : List Char} (h : field.Legible (text ++ rest))
    (hrest : rest = [] ∨ ∃ step, rest = '/' :: step) : field.Legible text := by
  rcases hrest with rfl | ⟨step, rfl⟩
  · rwa [List.append_nil] at h
  · exact (Field.legible_append_cons field.separates_slash (by decide) h).1

/-- Elements of a list that are shown alike are alike. -/
theorem elementAlike_of_listElement (h : field.Legible text) (h' : field.Legible text')
    (heq : english.listElement field text = english.listElement field text') :
    ElementAlike field text text' := by
  obtain ⟨span, rest, rfl, hspan, hrest, hshown⟩ := exists_span field text
  obtain ⟨span', rest', rfl, hspan', hrest', hshown'⟩ := exists_span field text'
  have hlacks : ∀ {value : List Char}, '/' ∉ value → Lacks ['/'] value :=
    fun hvalue => lacks_singleton (by decide) hvalue
  have hhead : ∀ tail : List Char, (tail = [] ∨ ∃ step, tail = '/' :: step) →
      ∀ c ∈ tail.head?, c ∈ ['/'] := by
    rintro tail (rfl | ⟨step, rfl⟩) c hc
    · cases hc
    · exact List.mem_singleton.mpr (Option.some.inj hc).symm
  obtain ⟨halike, rfl⟩ := spanAlike_of_shownSpan (legible_span h hrest) (legible_span h' hrest')
    (.inl rfl) (by decide) (hlacks hspan) (hlacks hspan') (hhead rest hrest) (hhead rest' hrest')
    (hshown.symm.trans ((congrArg String.toList heq).trans hshown'))
  rcases hrest with rfl | ⟨step, rfl⟩
  · rw [List.append_nil, List.append_nil]
    exact .span hspan hspan' halike
  · exact .stepped step hspan hspan' halike

/-! ## Fields -/

/-- What a phrase starts with. -/
inductive Lead where
  | every
  | starting
  | at
  deriving DecidableEq

/-- The word that a phrase starts with. -/
def Lead.word : Lead → List Char
  | every => "Every ".toList
  | starting => "From ".toList
  | .at => "At ".toList

theorem Lead.word_append_inj {lead lead' : Lead} {rest rest' : List Char}
    (h : lead.word ++ rest = lead'.word ++ rest') : lead = lead' ∧ rest = rest' := by
  have hne : ∀ lead : Lead, lead.word ≠ [] := by
    intro lead
    cases lead <;> decide
  have hhead : lead.word.head? = lead'.word.head? := by
    rw [← List.head?_append_of_ne_nil _ (hne lead), h, List.head?_append_of_ne_nil _ (hne lead')]
  have hlead : ∀ lead lead' : Lead, lead.word.head? = lead'.word.head? → lead = lead' := by
    intro lead lead'
    cases lead <;> cases lead' <;> decide
  obtain rfl := hlead lead lead' hhead
  exact ⟨rfl, List.append_cancel_left h⟩

/-- The units of a field, every so many of them. -/
def unitsOf (field : Field) (n : Nat) : List Char :=
  decimal n ++ ' ' :: (field.unit.toList ++ ['s'])

/-- What follows the first word of a phrase for a whole field with a step. -/
def wholeRest (field : Field) (n : Nat) : List Char :=
  if n = 1 then field.unit.toList else unitsOf field n

/-- What follows a span with a step. -/
def stepRest (field : Field) (n : Nat) : List Char :=
  if 1 < n then ", every ".toList ++ unitsOf field n else []

/-- A step is shown behind a comma. -/
theorem head?_stepRest (n : Nat) : ∀ c ∈ (stepRest field n).head?, c ∈ [','] := by
  intro c hc
  unfold stepRest at hc
  split at hc
  · exact List.mem_singleton.mpr (Option.some.inj hc).symm
  · cases hc

theorem unitsOf_inj (h : unitsOf field m = unitsOf field n) : m = n :=
  decimal_inj
    (append_cons_inj (not_mem_decimal (by decide) m) (not_mem_decimal (by decide) n) h).1

theorem wholeRest_inj (h : wholeRest field m = wholeRest field n) : m = n := by
  have hunit : ∀ k, field.unit.toList ≠ unitsOf field k := by
    intro k heq
    have hblank : ' ' ∉ field.unit.toList := by
      cases field <;> decide
    exact hblank (heq ▸ List.mem_append_right _ List.mem_cons_self)
  unfold wholeRest at h
  by_cases hm : m = 1
  · by_cases hn : n = 1
    · rw [hm, hn]
    · rw [if_pos hm, if_neg hn] at h
      exact absurd h (hunit n)
  · by_cases hn : n = 1
    · rw [if_neg hm, if_pos hn] at h
      exact absurd h.symm (hunit m)
    · rw [if_neg hm, if_neg hn] at h
      exact unitsOf_inj h

theorem stepRest_inj (hm : 0 < m) (hn : 0 < n) (h : stepRest field m = stepRest field n) :
    m = n := by
  unfold stepRest at h
  by_cases hm' : 1 < m
  · by_cases hn' : 1 < n
    · rw [if_pos hm', if_pos hn'] at h
      exact unitsOf_inj (List.append_cancel_left h)
    · rw [if_pos hm', if_neg hn'] at h
      cases h
  · by_cases hn' : 1 < n
    · rw [if_neg hm', if_pos hn'] at h
      cases h
    · omega

/-- A token for the whole field, with a step. -/
def IsWholeStep (token : List Char) (n : Nat) : Prop :=
  IsLone token ∧ n = 1 ∨
    ∃ count, token = '*' :: '/' :: count ∧ numeralUpTo? byteLimit count = some n

/-- A token for a span with a step.  A range may do without one. -/
structure IsSpanStep (token span : List Char) (n : Nat) : Prop where
  not_star : span ≠ ['*']
  no_slash : '/' ∉ span
  no_comma : ',' ∉ token
  form : token = span ∧ '-' ∈ span ∧ n = 1 ∨
    ∃ count, token = span ++ '/' :: count ∧ numeralUpTo? byteLimit count = some n

/-- The view of a token that its shape gives. -/
inductive Shaped : List Char → Shape → Prop
  | wildcard {token : List Char} (h : IsWholeStep token 1) : Shaped token .wildcard
  | step {token : List Char} {n : Nat} (h : IsWholeStep token n) (hn : n ≠ 1) :
    Shaped token (.step n)
  | range {token first last : List Char} {step : Option Nat} (hdash : '-' ∉ first)
    (h : IsSpanStep token (first ++ '-' :: last) (step.getD 1)) :
    Shaped token (.range first last step)
  | upFrom {token first : List Char} {n : Nat} (hdash : '-' ∉ first)
    (h : IsSpanStep token first n) : Shaped token (.upFrom first n)
  | list {token : List Char} (hcomma : ',' ∈ token) : Shaped token (.list (token.splitOn ','))
  | value {token : List Char} (hlone : ¬ IsLone token) : Shaped token (.value token)

/-- A span and the step that follows it. -/
theorem shaped_ofSpan {token span : List Char} {count : Option Nat} (hlone : ¬ IsLone token)
    (hspan : '-' ∈ span ∨ count.isSome = true → IsSpanStep token span (count.getD 1))
    (hnone : count = none → token = span) : Shaped token (Shape.ofSpan span count) := by
  unfold Shape.ofSpan
  cases hcut : cutAt? '-' span with
  | some sides =>
    obtain ⟨first, last⟩ := sides
    obtain ⟨rfl, hdash⟩ := cutAt?_eq_some_iff.mp hcut
    exact .range hdash (hspan (.inl (List.mem_append_right _ List.mem_cons_self)))
  | none =>
    cases count with
    | none =>
      obtain rfl := hnone rfl
      exact .value hlone
    | some n => exact .upFrom (cutAt?_eq_none_iff.mp hcut) (hspan (.inr rfl))

/-- Every shape is one of a token in view. -/
theorem shaped_ofToken (token : List Char) : Shaped token (Shape.ofToken token) := by
  unfold Shape.ofToken
  by_cases hlone : token = ['*'] ∨ token = ['?']
  · rw [if_pos hlone]
    exact .wildcard (.inl ⟨hlone, rfl⟩)
  · rw [if_neg hlone]
    cases hstrip : ['*', '/'].isPrefixOf? token with
    | some count =>
      have htoken : token = '*' :: '/' :: count :=
        (List.isPrefixOf?_eq_some_iff_append_eq.mp hstrip).symm
      cases hn : numeralUpTo? byteLimit count with
      | none => simpa only [hn] using Shaped.value hlone
      | some n =>
        simp only [hn]
        by_cases hone : n = 1
        · rw [if_pos hone]
          exact .wildcard (.inr ⟨count, htoken, hone ▸ hn⟩)
        · rw [if_neg hone]
          exact .step (.inr ⟨count, htoken, hn⟩) hone
    | none =>
      by_cases hcomma : ',' ∈ token
      · simp only [if_pos hcomma]
        exact .list hcomma
      · simp only [if_neg hcomma]
        unfold Shape.ofElement
        cases hcut : cutAt? '/' token with
        | none =>
          have hslash := cutAt?_eq_none_iff.mp hcut
          refine shaped_ofSpan hlone (fun hdash => ?_) fun _ => rfl
          exact ⟨fun hstar => hlone (.inl hstar), hslash, hcomma,
            .inl ⟨rfl, hdash.resolve_right Bool.false_ne_true, rfl⟩⟩
        | some sides =>
          obtain ⟨span, count⟩ := sides
          obtain ⟨rfl, hslash⟩ := cutAt?_eq_some_iff.mp hcut
          cases hn : numeralUpTo? byteLimit count with
          | none => simpa only [hn] using Shaped.value hlone
          | some n =>
            have hstar : span ≠ ['*'] := by
              rintro rfl
              cases hstrip
            simp only [hn]
            refine shaped_ofSpan hlone (fun _ => ?_) nofun
            exact ⟨hstar, hslash, hcomma, .inr ⟨count, rfl, hn⟩⟩

/-- The view of a token that its phrase gives. -/
inductive Shown (field : Field) : List Char → Lead → List Char → Prop
  | whole {token : List Char} {n : Nat} (h : IsWholeStep token n) :
    Shown field token .every (wholeRest field n)
  | span {token span : List Char} {n : Nat} (h : IsSpanStep token span n) :
    Shown field token .starting (shownSpan field " to ".toList span ++ stepRest field n)
  | list {token : List Char} (hcomma : ',' ∈ token) :
    Shown field token .at ([',', ' '].intercalate
      ((token.splitOn ',').map fun element => (english.listElement field element).toList))
  | value {token : List Char} (hlone : ¬ IsLone token) :
    Shown field token .at (shown field token)

theorem toList_stepped (field : Field) (phrase : String) (step : Option Nat) :
    (english.stepped field phrase step).toList =
      phrase.toList ++ stepRest field (step.getD 1) := by
  cases step with
  | none => exact (List.append_nil _).symm
  | some n =>
    unfold stepped stepRest
    by_cases hn : 1 < n
    · simp only [if_pos hn, toList_withStep, Option.getD_some]
      rfl
    · simp only [if_neg hn, List.append_nil, Option.getD_some]

/-- Every phrase is one of a token in view. -/
theorem exists_shown (field : Field) (token : List Char) :
    ∃ lead rest, Shown field token lead rest ∧
      (english.phraseOf field (Shape.ofToken token)).toList = lead.word ++ rest := by
  have hshaped := shaped_ofToken token
  generalize Shape.ofToken token = shape at hshaped
  cases hshaped with
  | wildcard h => exact ⟨_, _, .whole h, toList_everyUnit _⟩
  | @step n h hn =>
    refine ⟨_, _, .whole h, ?_⟩
    rw [wholeRest, if_neg hn]
    exact toList_everyUnits n _
  | @range first last step hdash h =>
    refine ⟨_, _, .span h, ?_⟩
    rw [phraseOf, toList_stepped, toList_fromTo, shownSpan_range hdash]
    simp only [List.append_assoc]
    rfl
  | @upFrom first n hdash h =>
    refine ⟨_, _, .span h, ?_⟩
    rw [phraseOf, toList_stepped, toList_upFrom, shownSpan_single hdash, List.append_assoc]
    rfl
  | list hcomma =>
    refine ⟨_, _, .list hcomma, (toList_atPhrase _).trans ?_⟩
    rw [String.toList_intercalate, List.map_map]
    rfl
  | value hlone => exact ⟨_, _, .value hlone, toList_atPhrase _⟩

end Language
end CronSchedule
