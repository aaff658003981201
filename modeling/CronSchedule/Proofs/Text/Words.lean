import CronSchedule.Text.Blank
import Mathlib.Data.List.Basic

/-! # Words and gaps

A text is cut into its words by gaps of blanks.  `Separated` relates a text that starts and
ends with a word to its words, without reference to how they are found.  Trimming takes away
nothing but blanks (`exists_append_trim`), and what is left is separated into its words
(`separated_words`).  A separated text is trimmed already (`Separated.trimmed`) and has just
these words (`Separated.words_eq`), so reading it again finds the same.
-/
namespace CronSchedule.Text

variable {text word gap left right : List Char} {pieces : List (List Char)} {c : Char}

/-- Some characters, none of them blank. -/
def IsWord (text : List Char) : Prop := text ≠ [] ∧ ∀ c ∈ text, isBlank c = false

/-- Some blanks. -/
def IsGap (text : List Char) : Prop := text ≠ [] ∧ ∀ c ∈ text, isBlank c = true

theorem IsWord.isBlank_head (h : IsWord word) (hc : (word ++ text).head? = some c) :
    isBlank c = false := by
  rw [List.head?_append_of_ne_nil _ h.1] at hc
  exact h.2 c (List.mem_of_mem_head? hc)

theorem IsGap.isBlank_head (h : IsGap gap) (hc : (gap ++ text).head? = some c) :
    isBlank c = true := by
  rw [List.head?_append_of_ne_nil _ h.1] at hc
  exact h.2 c (List.mem_of_mem_head? hc)

/-- A text that consists of words with a gap between neighbours. -/
inductive Separated : List Char → List (List Char) → Prop
  | last {word : List Char} (hword : IsWord word) : Separated word [word]
  | cons {word gap text : List Char} {pieces : List (List Char)} (hword : IsWord word)
    (hgap : IsGap gap) (h : Separated text pieces) :
    Separated (word ++ (gap ++ text)) (word :: pieces)

/-- No digit is a blank. -/
theorem isBlank_of_isDigit (h : c.isDigit = true) : isBlank c = false := by
  have hdigit : 48 ≤ c.toNat ∧ c.toNat ≤ 57 := by
    simpa [Char.isDigit, UInt32.le_iff_toNat_le] using h
  have hranges : ∀ range ∈ blankRanges, range.2 < 48 ∨ 57 < range.1 := by decide
  rw [isBlank, List.any_eq_false]
  intro range hrange
  have hapart := hranges range hrange
  simp only [Bool.and_eq_true, decide_eq_true_eq, not_and]
  omega

theorem isDigit_of_isBlank (h : isBlank c = true) : c.isDigit = false := by
  by_contra hdigit
  rw [isBlank_of_isDigit (Bool.of_not_eq_false hdigit)] at h
  cases h

/-! ## The words of a text -/

/-- A text is what it starts with of one kind, and a rest that starts otherwise. -/
theorem exists_span (kind : Char → Bool) (text : List Char) :
    ∃ front rest, text = front ++ rest ∧ (∀ c ∈ front, kind c = true) ∧
      (∀ c, rest.head? = some c → kind c = false) ∧ rest = text.dropWhile kind := by
  refine ⟨text.takeWhile kind, text.dropWhile kind, List.takeWhile_append_dropWhile.symm,
    List.all_eq_true.mp List.all_takeWhile, fun c hc => ?_, rfl⟩
  have hhead := List.head?_dropWhile_not kind text
  rwa [hc] at hhead

/-- A blank separates words. -/
theorem words_append_cons (hc : isBlank c = true) :
    words (left ++ c :: right) = words left ++ words right := by
  rw [words, List.splitOnP_append_cons left right hc, List.filter_append]
  rfl

/-- Blanks at the front of a text belong to no word. -/
theorem words_append_left (hgap : ∀ c ∈ gap, isBlank c = true) :
    words (gap ++ text) = words text := by
  induction gap with
  | nil => rfl
  | cons c gap ih =>
    have hc : words ([] ++ c :: (gap ++ text)) = words [] ++ words (gap ++ text) :=
      words_append_cons (hgap c List.mem_cons_self)
    rw [List.cons_append, ← ih fun a ha => hgap a (List.mem_cons_of_mem _ ha)]
    exact hc

/-- Nor do blanks at the end. -/
theorem words_append_right (hgap : ∀ c ∈ gap, isBlank c = true) :
    words (text ++ gap) = words text := by
  cases gap with
  | nil => rw [List.append_nil]
  | cons c gap =>
    have hrest : words (gap ++ []) = words [] :=
      words_append_left fun a ha => hgap a (List.mem_cons_of_mem _ ha)
    rw [List.append_nil] at hrest
    rw [words_append_cons (hgap c List.mem_cons_self), hrest, words_nil, List.append_nil]

theorem words_of_isWord (h : IsWord word) : words word = [word] := by
  rw [words, List.splitOnP_eq_singleton h.2]
  simp [h.1]

theorem words_append_gap (hword : IsWord word) (hgap : IsGap gap) :
    words (word ++ (gap ++ text)) = word :: words text := by
  obtain ⟨c, rest, rfl⟩ := List.exists_cons_of_ne_nil hgap.1
  rw [List.cons_append, words_append_cons (hgap.2 c List.mem_cons_self), words_of_isWord hword,
    words_append_left fun a ha => hgap.2 a (List.mem_cons_of_mem _ ha)]
  rfl

/-- A text without blanks is one word, or none. -/
theorem words_of_not_isBlank (h : ∀ c ∈ text, isBlank c = false) :
    words text = if text = [] then [] else [text] := by
  by_cases hne : text = []
  · rw [if_pos hne, hne, words_nil]
  · rw [if_neg hne, words_of_isWord ⟨hne, h⟩]

/-- A word at the front of a text goes on to the first blank. -/
theorem words_isWord_append (hword : IsWord word) (text : List Char) : ∃ rest more,
    words (word ++ text) = (word ++ rest) :: more ∧
      (rest = [] ∧ words text = more ∨ words text = rest :: more) := by
  obtain ⟨rest, tail, rfl, hrest, htail, -⟩ := exists_span (!isBlank ·) text
  simp only [Bool.not_eq_true'] at hrest
  have hlonger : IsWord (word ++ rest) := by
    refine ⟨List.append_ne_nil_of_left_ne_nil hword.1 _, fun c hc => ?_⟩
    exact (List.mem_append.mp hc).elim (hword.2 c) (hrest c)
  have hfront := words_of_not_isBlank hrest
  cases tail with
  | nil =>
    refine ⟨rest, [], ?_, ?_⟩
    · rw [List.append_nil, words_of_isWord hlonger]
    · rw [List.append_nil, hfront]
      by_cases hne : rest = []
      · exact .inl ⟨hne, if_pos hne⟩
      · exact .inr (if_neg hne)
  | cons c tail =>
    have hblank : isBlank c = true := by simpa using htail c rfl
    refine ⟨rest, words tail, ?_, ?_⟩
    · rw [← List.append_assoc, words_append_cons hblank, words_of_isWord hlonger]
      rfl
    · rw [words_append_cons hblank, hfront]
      by_cases hne : rest = []
      · rw [if_pos hne]
        exact .inl ⟨hne, rfl⟩
      · rw [if_neg hne]
        exact .inr rfl

/-- The characters of a text that are not blank. -/
def visible (text : List Char) : List Char := text.filter (!isBlank ·)

theorem visible_append (left right : List Char) :
    visible (left ++ right) = visible left ++ visible right :=
  List.filter_append left right

theorem visible_of_isBlank (h : ∀ c ∈ gap, isBlank c = true) : visible gap = [] :=
  List.filter_eq_nil_iff.mpr fun c hc => by simp [h c hc]

/-- The words of a text hold the characters of it that are not blank. -/
theorem flatten_words (text : List Char) : (words text).flatten = visible text := by
  induction text with
  | nil => rfl
  | cons c text ih =>
    by_cases hblank : isBlank c = true
    · have hwords : words ([c] ++ text) = words text :=
        words_append_left (List.forall_mem_singleton.mpr hblank)
      rw [List.singleton_append] at hwords
      rw [hwords, ih, visible, visible, List.filter_cons_of_neg (by simp [hblank])]
    · rw [Bool.not_eq_true] at hblank
      have hword : IsWord [c] := ⟨List.cons_ne_nil _ _, List.forall_mem_singleton.mpr hblank⟩
      obtain ⟨rest, more, hlonger, htext⟩ := words_isWord_append hword text
      have hrest : rest ++ more.flatten = (words text).flatten := by
        rcases htext with ⟨rfl, htext⟩ | htext
        · rw [htext, List.nil_append]
        · rw [htext, List.flatten_cons]
      rw [List.singleton_append, List.singleton_append] at hlonger
      rw [hlonger, List.flatten_cons, List.cons_append, hrest, ih, visible, visible,
        List.filter_cons_of_pos (by simp [hblank])]

/-- A separated text has just the words it consists of. -/
theorem Separated.words_eq (h : Separated text pieces) : words text = pieces := by
  induction h with
  | last hword => exact words_of_isWord hword
  | cons hword hgap _ ih => rw [words_append_gap hword hgap, ih]

theorem Separated.pieces_ne_nil (h : Separated text pieces) : pieces ≠ [] := by
  cases h with
  | last _ => exact List.cons_ne_nil _ _
  | cons _ _ _ => exact List.cons_ne_nil _ _

/-- What is not blank stands in one of the words. -/
theorem Separated.mem_iff (h : Separated text pieces) (hc : isBlank c = false) :
    c ∈ text ↔ ∃ piece ∈ pieces, c ∈ piece := by
  induction h with
  | last _ => simp
  | @cons word gap text pieces _ hgap _ ih =>
    have hnone : c ∉ gap := by
      intro hmem
      rw [hgap.2 c hmem] at hc
      cases hc
    simp [hnone, ih]

/-! ## Trimming -/

/-- A text that neither starts nor ends with a blank. -/
def Trimmed (text : List Char) : Prop :=
  (∀ c, text.head? = some c → isBlank c = false) ∧
    ∀ c, text.getLast? = some c → isBlank c = false

/-- Trimming takes blanks away at both ends, and all that stand there. -/
theorem exists_append_trim (text : List Char) : ∃ before after,
    text = before ++ (trim text ++ after) ∧ (∀ c ∈ before, isBlank c = true) ∧
      (∀ c ∈ after, isBlank c = true) ∧ Trimmed (trim text) := by
  obtain ⟨before, rest, htext, hbefore, hfirst, hrest⟩ := exists_span isBlank text
  obtain ⟨after, part, hreverse, hafter, hlast, hpart⟩ := exists_span isBlank rest.reverse
  have htrim : trim text = part.reverse := by rw [trim, hpart, hrest]
  have hcut : rest = part.reverse ++ after.reverse := by
    rw [← List.reverse_append, ← hreverse, List.reverse_reverse]
  rw [htrim]
  refine ⟨before, after.reverse, ?_, hbefore, fun c hc => hafter c (List.mem_reverse.mp hc), ?_, ?_⟩
  · rw [← hcut, ← htext]
  · intro c hc
    refine hfirst c ?_
    rw [hcut, List.head?_append, hc, Option.some_or]
  · intro c hc
    rw [List.getLast?_reverse] at hc
    exact hlast c hc

theorem words_trim (text : List Char) : words (trim text) = words text := by
  obtain ⟨before, after, htext, hbefore, hafter, -⟩ := exists_append_trim text
  conv_rhs => rw [htext, words_append_left hbefore, words_append_right hafter]

theorem dropWhile_eq_self (h : ∀ c, text.head? = some c → isBlank c = false) :
    text.dropWhile isBlank = text := by
  cases text with
  | nil => rfl
  | cons c rest => rw [List.dropWhile_cons, h c rfl, if_neg Bool.false_ne_true]

theorem Trimmed.trim_eq_self (h : Trimmed text) : trim text = text := by
  rw [trim, dropWhile_eq_self h.1, dropWhile_eq_self, List.reverse_reverse]
  intro c hc
  rw [List.head?_reverse] at hc
  exact h.2 c hc

/-! ## Separated texts -/

theorem Separated.ne_nil (h : Separated text pieces) : text ≠ [] := by
  cases h with
  | last hword => exact hword.1
  | cons hword => exact List.append_ne_nil_of_left_ne_nil hword.1 _

theorem Separated.trimmed (h : Separated text pieces) : Trimmed text := by
  induction h with
  | last hword =>
    exact ⟨fun c hc => hword.2 c (List.mem_of_head? hc),
      fun c hc => hword.2 c (List.mem_of_getLast? hc)⟩
  | cons hword hgap h ih =>
    refine ⟨fun c hc => ?_, fun c hc => ?_⟩
    · rw [List.head?_append_of_ne_nil _ hword.1] at hc
      exact hword.2 c (List.mem_of_head? hc)
    · rw [← List.append_assoc, List.getLast?_append_of_ne_nil _ h.ne_nil] at hc
      exact ih.2 c hc

/-- A trimmed text is one word, or a word, a gap and a trimmed rest. -/
theorem Trimmed.isWord_or_cut (h : Trimmed text) (hne : text ≠ []) :
    IsWord text ∨ ∃ word gap rest, text = word ++ (gap ++ rest) ∧ IsWord word ∧ IsGap gap ∧
      Trimmed rest ∧ rest ≠ [] := by
  obtain ⟨word, tail, rfl, hword, htail, -⟩ := exists_span (!isBlank ·) text
  simp only [Bool.not_eq_true', Bool.not_eq_false'] at hword htail
  obtain ⟨gap, rest, rfl, hgap, hrest, -⟩ := exists_span isBlank tail
  have hwordNe : word ≠ [] := by
    rintro rfl
    -- the first character of the text would be a blank, and is none
    rw [List.nil_append] at h hne
    obtain ⟨c, more, hcons⟩ := List.exists_cons_of_ne_nil hne
    have hhead : (gap ++ rest).head? = some c := by rw [hcons]; rfl
    have hblank := htail c hhead
    rw [h.1 c hhead] at hblank
    cases hblank
  by_cases hrestNe : rest = []
  · subst hrestNe
    rw [List.append_nil] at h ⊢
    rcases gap.eq_nil_or_concat' with rfl | ⟨gap, c, rfl⟩
    · rw [List.append_nil]
      exact .inl ⟨hwordNe, hword⟩
    · -- the last character of the text would be a blank, and is none
      have hblank := hgap c (List.mem_append_right _ List.mem_cons_self)
      rw [h.2 c (by rw [← List.append_assoc, List.getLast?_concat])] at hblank
      cases hblank
  · have hgapNe : gap ≠ [] := by
      rintro rfl
      rw [List.nil_append] at htail
      obtain ⟨c, more, rfl⟩ := List.exists_cons_of_ne_nil hrestNe
      have hblank := htail c rfl
      rw [hrest c rfl] at hblank
      cases hblank
    refine .inr ⟨word, gap, rest, rfl, ⟨hwordNe, hword⟩, ⟨hgapNe, hgap⟩, ⟨hrest, ?_⟩, hrestNe⟩
    intro c hc
    refine h.2 c ?_
    rw [← List.append_assoc, List.getLast?_append_of_ne_nil _ hrestNe, hc]

/-- A trimmed text that is not empty consists of words. -/
theorem Trimmed.exists_separated (h : Trimmed text) (hne : text ≠ []) :
    ∃ pieces, Separated text pieces := by
  induction hn : text.length using Nat.strongRecOn generalizing text with
  | ind n ih =>
    rcases h.isWord_or_cut hne with hword | ⟨word, gap, rest, rfl, hword, hgap, hrest, hne'⟩
    · exact ⟨[text], .last hword⟩
    · have hlength : rest.length < n := by
        have := List.length_pos_of_ne_nil hword.1
        rw [List.length_append, List.length_append] at hn
        omega
      obtain ⟨pieces, hpieces⟩ := ih rest.length hlength hrest hne' rfl
      exact ⟨word :: pieces, .cons hword hgap hpieces⟩

/-- What is left of a text after trimming consists of the words of the text. -/
theorem separated_words (h : trim text ≠ []) : Separated (trim text) (words text) := by
  obtain ⟨before, after, -, -, -, htrimmed⟩ := exists_append_trim text
  obtain ⟨pieces, hpieces⟩ := htrimmed.exists_separated h
  rwa [← words_trim, hpieces.words_eq]

/-! ## Words put together -/

theorem Separated.isWord (h : Separated text pieces) : ∀ piece ∈ pieces, IsWord piece := by
  induction h with
  | last hword => exact List.forall_mem_singleton.mpr hword
  | cons hword _ _ ih => exact List.forall_mem_cons.mpr ⟨hword, ih⟩

theorem isWord_of_mem_words (h : word ∈ words text) : IsWord word := by
  by_cases hne : trim text = []
  · rw [← words_trim, hne, words_nil] at h
    cases h
  · exact (separated_words hne).isWord word h

/-- Words with the same gap between any two neighbours. -/
theorem separated_intercalate (hgap : IsGap gap) (hne : pieces ≠ [])
    (h : ∀ piece ∈ pieces, IsWord piece) : Separated (gap.intercalate pieces) pieces := by
  induction pieces with
  | nil => exact absurd rfl hne
  | cons word pieces ih =>
    obtain ⟨hword, hrest⟩ := List.forall_mem_cons.mp h
    cases pieces with
    | nil =>
      rw [List.intercalate_singleton]
      exact .last hword
    | cons second rest =>
      rw [List.intercalate_cons_cons, List.append_assoc]
      exact .cons hword hgap (ih (List.cons_ne_nil _ _) hrest)

end CronSchedule.Text
