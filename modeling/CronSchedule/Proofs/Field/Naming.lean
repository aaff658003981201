import CronSchedule.Field.Alias
import Mathlib.Data.List.Basic

/-! # Names inside a token

Names are replaced by their numbers wherever they occur, one name after the other and over
the whole token.  The characters that cut a token into parts belong to no name, so the
replacement may as well be made part by part: it leaves a separator where it is
(`renumber_append_cons`) and commutes with cutting a token into its list
(`splitOn_replaceAliases`).  Only a Sunday that ends a range is looked at with the range
around it (`resolve_append_dash`).  A token in which no name occurs stays as it is
(`replaceAliases_eq_self`).
-/
namespace CronSchedule

/-! ## Lists -/

namespace Text

variable {text left right piece : List Char} {pieces : List (List Char)} {mark c : Char}

theorem infix_intercalate {separator : List Char} (h : text ∈ pieces) :
    text <:+: separator.intercalate pieces := by
  induction pieces with
  | nil => cases h
  | cons first rest ih =>
    rcases List.mem_cons.mp h with rfl | hrest
    · cases rest with
      | nil => exact List.intercalate_singleton ▸ List.infix_rfl
      | cons next rest =>
        rw [List.intercalate_cons_cons, List.append_assoc]
        exact (List.prefix_append _ _).isInfix
    · obtain ⟨next, rest, rfl⟩ := List.exists_cons_of_ne_nil (List.ne_nil_of_mem hrest)
      rw [List.intercalate_cons_cons]
      exact (ih hrest).trans (List.suffix_append _ _).isInfix

theorem infix_of_mem_splitOn (h : piece ∈ text.splitOn mark) : piece <:+: text := by
  have hjoin : [mark].intercalate (text.splitOn mark) = text := List.intercalate_splitOn mark
  have hin : piece <:+: [mark].intercalate (text.splitOn mark) := infix_intercalate h
  rwa [hjoin] at hin

theorem mem_of_mem_splitOn (h : piece ∈ text.splitOn mark) (hc : c ∈ piece) : c ∈ text :=
  (infix_of_mem_splitOn h).subset hc

theorem splitOn_cut (h : mark ∉ left) :
    (left ++ mark :: right).splitOn mark = left :: right.splitOn mark := by
  rw [List.splitOn_append_cons_self, List.splitOn_eq_singleton h]
  rfl

/-- A beginning without the separator lies before it. -/
theorem isPrefixOf?_append_cons {beginning : List Char} (h : mark ∉ beginning) :
    beginning.isPrefixOf? (left ++ mark :: right) =
      (beginning.isPrefixOf? left).map (· ++ mark :: right) := by
  induction beginning generalizing left with
  | nil => rw [List.isPrefixOf?, List.isPrefixOf?, Option.map_some]
  | cons b beginning ih =>
    rw [List.mem_cons, not_or] at h
    cases left with
    | nil => exact if_neg fun heq => h.1 (beq_iff_eq.mp heq).symm
    | cons c left =>
      rw [List.cons_append, List.isPrefixOf?, List.isPrefixOf?, ih h.2]
      by_cases hc : (b == c) = true
      · rw [if_pos hc, if_pos hc]
      · rw [if_neg hc, if_neg hc]
        rfl

/-- What holds of a text without the separator, and of a longer list when it holds after
the first piece, holds of every text. -/
theorem cutInduction (mark : Char) {motive : List Char → Prop}
    (lone : ∀ text, mark ∉ text → motive text)
    (cut : ∀ left right, mark ∉ left → motive right → motive (left ++ mark :: right))
    (text : List Char) : motive text := by
  induction hn : text.length using Nat.strongRecOn generalizing text with
  | ind n ih =>
    by_cases hmark : mark ∈ text
    · obtain ⟨left, right, rfl, hleft⟩ := List.eq_append_cons_of_mem hmark
      rw [List.length_append, List.length_cons] at hn
      exact cut left right hleft (ih right.length (by omega) right rfl)
    · exact lone text hmark

/-- No piece holds the separator. -/
theorem not_mem_of_mem_splitOn (h : piece ∈ text.splitOn mark) : mark ∉ piece := by
  induction text using cutInduction mark with
  | lone text hlone =>
    rw [List.splitOn_eq_singleton hlone, List.mem_singleton] at h
    rwa [h]
  | cut left right hleft ih =>
    rw [splitOn_cut hleft] at h
    rcases List.mem_cons.mp h with rfl | hrest
    · exact hleft
    · exact ih hrest

/-- A text is known by its pieces. -/
theorem eq_of_splitOn_eq (h : left.splitOn mark = right.splitOn mark) : left = right := by
  have hleft : [mark].intercalate (left.splitOn mark) = left := List.intercalate_splitOn mark
  rw [← hleft, h, List.intercalate_splitOn]

/-- A change of the text that keeps the separators changes the pieces one by one. -/
theorem splitOn_map {f : List Char → List Char}
    (hcut : ∀ left right, f (left ++ mark :: right) = f left ++ mark :: f right)
    (hmem : ∀ piece, mark ∉ piece → mark ∉ f piece) (text : List Char) :
    (f text).splitOn mark = (text.splitOn mark).map f := by
  induction text using cutInduction mark with
  | lone text hlone =>
    rw [List.splitOn_eq_singleton hlone, List.splitOn_eq_singleton (hmem text hlone)]
    rfl
  | cut left right hleft ih =>
    rw [hcut, splitOn_cut (hmem left hleft), splitOn_cut hleft, List.map_cons, ih]

theorem exists_mem_splitOn (hc : c ∈ text) (hne : c ≠ mark) :
    ∃ piece ∈ text.splitOn mark, c ∈ piece := by
  induction text using cutInduction mark with
  | lone text hlone =>
    rw [List.splitOn_eq_singleton hlone]
    exact ⟨text, List.mem_singleton_self _, hc⟩
  | cut left right hleft ih =>
    rw [splitOn_cut hleft]
    rcases List.mem_append.mp hc with hmem | hmem
    · exact ⟨left, List.mem_cons_self, hmem⟩
    · obtain ⟨piece, hpiece, hin⟩ := ih ((List.mem_cons.mp hmem).resolve_left hne)
      exact ⟨piece, List.mem_cons_of_mem _ hpiece, hin⟩

/-! ## Capital letters -/

theorem toUpper_eq_or_isUpper (c : Char) : c.toUpper = c ∨ c.toUpper.isUpper = true := by
  unfold Char.toUpper
  split
  · rename_i hlower
    right
    have hlo : 97 ≤ c.val.toNat := UInt32.le_iff_toNat_le.mp hlower.1
    have hhi : c.val.toNat ≤ 122 := UInt32.le_iff_toNat_le.mp hlower.2
    have hvalue : (c.val + ('A'.val - 'a'.val)).toNat = c.val.toNat - 32 := by
      have hshift : ('A'.val - 'a'.val).toNat = 2 ^ 32 - 32 := by decide
      rw [UInt32.toNat_add, hshift]
      omega
    have hfirst : 'A'.val.toNat = 65 := rfl
    have hlast : 'Z'.val.toNat = 90 := rfl
    refine decide_eq_true ?_
    rw [ge_iff_le, UInt32.le_iff_toNat_le, UInt32.le_iff_toNat_le, hvalue]
    omega
  · exact .inl rfl

/-- Only a letter is made another character by capitals. -/
theorem eq_of_toUpper_eq (hmark : mark.isUpper = false) (h : c.toUpper = mark) : c = mark := by
  rcases toUpper_eq_or_isUpper c with heq | hupper
  · exact heq.symm.trans h
  · rw [h, hmark] at hupper
    cases hupper

theorem toUpper_of_isDigit (h : c.isDigit = true) : c.toUpper = c := by
  have hle : c.val ≤ '9'.val := by
    rw [Char.isDigit, Bool.and_eq_true, decide_eq_true_eq, decide_eq_true_eq] at h
    exact h.2
  unfold Char.toUpper
  rw [dif_neg]
  rintro ⟨hlower, -⟩
  exact absurd (UInt32.le_trans hlower hle) (by decide)

theorem upper_digits (h : ∀ c ∈ text, c.isDigit = true) : upper text = text := by
  rw [upper]
  exact (List.map_congr_left fun c hc => toUpper_of_isDigit (h c hc)).trans (List.map_id _)

theorem upper_append (left right : List Char) : upper (left ++ right) = upper left ++ upper right :=
  List.map_append

theorem upper_append_cons (h : mark.toUpper = mark) :
    upper (left ++ mark :: right) = upper left ++ mark :: upper right := by
  rw [upper_append, upper, upper, upper, List.map_cons, h]

theorem not_mem_upper (hmark : mark.isUpper = false) (h : mark ∉ text) : mark ∉ upper text := by
  intro hmem
  obtain ⟨c, hc, heq⟩ := List.mem_map.mp hmem
  exact h (eq_of_toUpper_eq hmark heq ▸ hc)

theorem eq_singleton_of_upper (hmark : mark.isUpper = false) (h : upper text = [mark]) :
    text = [mark] := by
  obtain ⟨c, rfl, hc⟩ := List.map_eq_singleton_iff.mp h
  rw [eq_of_toUpper_eq hmark hc]

theorem splitOn_upper (text : List Char) :
    (upper text).splitOn ',' = (text.splitOn ',').map upper :=
  splitOn_map (fun _ _ => upper_append_cons (by decide)) (fun _ => not_mem_upper (by decide)) text

end Text

open Text

/-! ## One name -/

namespace Alias

variable {name : Alias} {text left right : List Char} {c : Char}

theorem replaceIn_cons (h : c ∉ name.letters) :
    name.replaceIn (c :: text) = c :: name.replaceIn text := by
  have hne : c ≠ name.first := fun heq => h (heq ▸ List.mem_cons_self)
  match text with
  | [] => rfl
  | [_] => rfl
  | y :: z :: rest => rw [replaceIn, if_neg fun hname => hne hname.1]

/-- A character that is none of the name separates the two sides. -/
theorem replaceIn_append_cons (h : c ∉ name.letters) :
    name.replaceIn (left ++ c :: right) = name.replaceIn left ++ c :: name.replaceIn right := by
  have hsecond : c ≠ name.second := fun heq => h (by simp [letters, heq])
  have hthird : c ≠ name.third := fun heq => h (by simp [letters, heq])
  fun_induction replaceIn name left with
  | case1 x y z rest hname ih =>
    rw [List.cons_append, List.cons_append, List.cons_append, replaceIn, if_pos hname, ih,
      List.append_assoc]
  | case2 x y z rest hname ih =>
    rw [List.cons_append, List.cons_append, List.cons_append, replaceIn, if_neg hname,
      ← List.cons_append, ← List.cons_append, ih]
    rfl
  | case3 left hshort =>
    -- no more than two characters come before the separator
    match left with
    | [] => exact replaceIn_cons h
    | [x] =>
      cases right with
      | nil => rfl
      | cons d right =>
        rw [List.singleton_append, replaceIn, if_neg fun hname => hsecond hname.2.1,
          replaceIn_cons h]
        rfl
    | [x, y] =>
      rw [List.cons_append, List.singleton_append, replaceIn, if_neg fun hname => hthird hname.2.2]
      cases right with
      | nil => rfl
      | cons d right =>
        rw [replaceIn, if_neg fun hname => hsecond hname.2.1, replaceIn_cons h]
        rfl
    | x :: y :: z :: rest => exact (hshort x y z rest rfl).elim

theorem mem_replaceIn (h : c ∈ name.replaceIn text) : c ∈ text ∨ c.isDigit = true := by
  fun_induction replaceIn name text with
  | case1 x y z rest hname ih =>
    rcases List.mem_append.mp h with hdigit | hrest
    · exact .inr (isDigit_of_mem_decimal hdigit)
    · exact (ih hrest).imp_left fun hmem => by simp [hmem]
  | case2 x y z rest hname ih =>
    rcases List.mem_cons.mp h with rfl | hrest
    · exact .inl List.mem_cons_self
    · exact (ih hrest).imp_left (List.mem_cons_of_mem _)
  | case3 text => exact .inl h

theorem replaceIn_eq_self (h : ¬ name.letters <:+: text) : name.replaceIn text = text := by
  fun_induction replaceIn name text with
  | case1 x y z rest hname =>
    refine absurd ⟨[], rest, ?_⟩ h
    rw [letters, hname.1, hname.2.1, hname.2.2]
    rfl
  | case2 x y z rest hname ih =>
    rw [ih fun hin => h (hin.trans (List.suffix_cons _ _).isInfix)]
  | case3 => rfl

/-- What is no digit comes from the text itself. -/
theorem replaceIn_eq_cons (hdigit : c.isDigit = false) (h : name.replaceIn text = c :: right) :
    ∃ tail, text = c :: tail ∧ right = name.replaceIn tail := by
  unfold replaceIn at h
  split at h
  · rename_i x y z rest
    split at h
    · obtain ⟨digit, digits, hdigits⟩ := List.exists_cons_of_ne_nil (decimal_ne_nil name.value)
      have hmem : digit ∈ decimal name.value := hdigits ▸ List.mem_cons_self
      have := isDigit_of_mem_decimal hmem
      rw [hdigits, List.cons_append, List.cons.injEq] at h
      rw [← h.1, this] at hdigit
      cases hdigit
    · rw [List.cons.injEq] at h
      exact ⟨y :: z :: rest, by rw [h.1], h.2.symm⟩
  · rename_i hshort
    subst h
    refine ⟨right, rfl, ?_⟩
    match right with
    | [] => rfl
    | [_] => rfl
    | y :: z :: rest => exact (hshort c y z rest rfl).elim

theorem replaceIn_eq_nil (h : name.replaceIn text = []) : text = [] := by
  unfold replaceIn at h
  split at h
  · split at h
    · exact absurd (List.append_eq_nil_iff.mp h).1 (decimal_ne_nil _)
    · cases h
  · exact h

end Alias

/-! ## All names of a field -/

namespace Field

variable {field : Field} {text left right token : List Char} {c : Char}

/-- A text with every name of the field replaced by its number. -/
def renumber (field : Field) (text : List Char) : List Char :=
  field.aliases.foldl (fun text name => name.replaceIn text) text

/-- An element of the field with a Sunday closing its range written as 7. -/
def close (field : Field) (element : List Char) : List Char :=
  if field = .dayOfWeek then closeOnSunday element else element

/-- Whether a character is part of no name of the field. -/
def Separates (field : Field) (c : Char) : Prop := ∀ name ∈ field.aliases, c ∉ name.letters

instance (field : Field) (c : Char) : Decidable (field.Separates c) :=
  inferInstanceAs (Decidable (∀ name ∈ field.aliases, c ∉ name.letters))

theorem foldl_append_cons {names : List Alias} (h : ∀ name ∈ names, c ∉ name.letters) :
    names.foldl (fun text name => name.replaceIn text) (left ++ c :: right) =
      names.foldl (fun text name => name.replaceIn text) left ++
        c :: names.foldl (fun text name => name.replaceIn text) right := by
  induction names generalizing left right with
  | nil => rfl
  | cons name names ih =>
    rw [List.foldl_cons, List.foldl_cons, List.foldl_cons,
      Alias.replaceIn_append_cons (h name List.mem_cons_self),
      ih fun other hother => h other (List.mem_cons_of_mem _ hother)]

theorem renumber_append_cons (h : field.Separates c) :
    field.renumber (left ++ c :: right) = field.renumber left ++ c :: field.renumber right :=
  foldl_append_cons h

@[simp] theorem renumber_nil (field : Field) : field.renumber [] = [] := by
  cases field <;> rfl

theorem renumber_cons (h : field.Separates c) :
    field.renumber (c :: text) = c :: field.renumber text := by
  have hcut := @renumber_append_cons field [] text c h
  rwa [renumber_nil] at hcut

theorem mem_renumber (h : c ∈ field.renumber text) : c ∈ text ∨ c.isDigit = true := by
  unfold renumber at h
  generalize field.aliases = names at h
  induction names generalizing text with
  | nil => exact .inl h
  | cons name names ih =>
    rcases ih h with hmem | hdigit
    · exact Alias.mem_replaceIn hmem
    · exact .inr hdigit

theorem mem_renumber_of_mem (h : field.Separates c) (hmem : c ∈ text) :
    c ∈ field.renumber text := by
  obtain ⟨left, right, rfl⟩ := List.append_of_mem hmem
  rw [renumber_append_cons h]
  exact List.mem_append_right _ List.mem_cons_self

theorem not_mem_renumber (hdigit : c.isDigit = false) (h : c ∉ text) :
    c ∉ field.renumber text := by
  intro hmem
  rcases mem_renumber hmem with hmem | hc
  · exact h hmem
  · rw [hdigit] at hc
    cases hc

theorem renumber_eq_cons (hdigit : c.isDigit = false) (h : field.renumber text = c :: right) :
    ∃ tail, text = c :: tail ∧ right = field.renumber tail := by
  unfold renumber at h ⊢
  generalize field.aliases = names at h ⊢
  induction names generalizing text with
  | nil => exact ⟨right, h, rfl⟩
  | cons name names ih =>
    obtain ⟨later, hlater, hright⟩ := ih h
    obtain ⟨tail, htail, rfl⟩ := Alias.replaceIn_eq_cons hdigit hlater
    exact ⟨tail, htail, hright⟩

theorem renumber_eq_nil (h : field.renumber text = []) : text = [] := by
  unfold renumber at h
  generalize field.aliases = names at h
  induction names generalizing text with
  | nil => exact h
  | cons name names ih => exact Alias.replaceIn_eq_nil (ih h)

/-- A lone character that is no digit is one from the start. -/
theorem eq_singleton_of_renumber (hdigit : c.isDigit = false) (h : field.renumber text = [c]) :
    text = [c] := by
  obtain ⟨tail, rfl, htail⟩ := renumber_eq_cons hdigit h
  rw [renumber_eq_nil htail.symm]

theorem renumber_eq_self (h : ∀ name ∈ field.aliases, ¬ name.letters <:+: text) :
    field.renumber text = text := by
  unfold renumber
  generalize field.aliases = names at h
  induction names with
  | nil => rfl
  | cons name names ih =>
    rw [List.foldl_cons, Alias.replaceIn_eq_self (h name List.mem_cons_self)]
    exact ih fun other hother => h other (List.mem_cons_of_mem _ hother)

/-! The characters that cut a token into elements, values, steps and counts are in no name. -/

theorem separates_comma (field : Field) : field.Separates ',' := by
  cases field <;> decide

theorem separates_dash (field : Field) : field.Separates '-' := by
  cases field <;> decide

theorem separates_slash (field : Field) : field.Separates '/' := by
  cases field <;> decide

theorem separates_hash (field : Field) : field.Separates '#' := by
  cases field <;> decide

/-- The end of a range with a Sunday that closes it written as 7. -/
def closing (field : Field) (first last : List Char) : List Char :=
  if field = .dayOfWeek ∧ ¬ (first = ['S', 'U', 'N'] ∨ first = ['0']) then
    match ['S', 'U', 'N'].isPrefixOf? last with
    | some rest => '7' :: rest
    | none => last
  else last

theorem close_eq_self (h : '-' ∉ text) : field.close text = text := by
  unfold close closeOnSunday
  rw [cutAt?_eq_none_iff.mpr h]
  exact ite_self text

theorem close_append_cons (h : '-' ∉ left) :
    field.close (left ++ '-' :: right) = left ++ '-' :: field.closing left right := by
  unfold close closeOnSunday closing
  rw [cutAt?_eq_some_iff.mpr ⟨rfl, h⟩]
  by_cases hfield : field = .dayOfWeek
  · by_cases hfirst : left = ['S', 'U', 'N'] ∨ left = ['0']
    · simp [hfield, hfirst]
    · cases hstrip : ['S', 'U', 'N'].isPrefixOf? right with
      | none => simp [hfield, hfirst, hstrip]
      | some rest => simp [hfield, hfirst, hstrip]
  · simp [hfield]

theorem closing_eq (field : Field) (left right : List Char) :
    field.closing left right = right ∨
      field = .dayOfWeek ∧ ¬ (left = ['S', 'U', 'N'] ∨ left = ['0']) ∧
        ∃ rest, right = 'S' :: 'U' :: 'N' :: rest ∧ field.closing left right = '7' :: rest := by
  unfold closing
  split
  · rename_i hcloses
    split
    · rename_i rest hstrip
      exact .inr ⟨hcloses.1, hcloses.2, rest,
        (List.isPrefixOf?_eq_some_iff_append_eq.mp hstrip).symm, rfl⟩
    · exact .inl rfl
  · exact .inl rfl

theorem close_eq_self_of_not_infix (h : ¬ ['S', 'U', 'N'] <:+: text) : field.close text = text := by
  by_cases hdash : '-' ∈ text
  · obtain ⟨left, right, rfl, hleft⟩ := List.eq_append_cons_of_mem hdash
    rw [close_append_cons hleft]
    rcases field.closing_eq left right with heq | ⟨-, -, rest, rfl, -⟩
    · rw [heq]
    · exact absurd ⟨left ++ ['-'], rest, by simp⟩ h
  · exact close_eq_self hdash

/-- A closed element holds no character that it did not hold before, 7 apart. -/
theorem mem_close (h : c ∈ field.close text) : c ∈ text ∨ c = '7' := by
  by_cases hdash : '-' ∈ text
  · obtain ⟨left, right, rfl, hleft⟩ := List.eq_append_cons_of_mem hdash
    rw [close_append_cons hleft] at h
    rcases field.closing_eq left right with heq | ⟨-, -, rest, rfl, heq⟩
    · rw [heq] at h
      exact .inl h
    · rw [heq] at h
      simp only [List.mem_append, List.mem_cons] at h ⊢
      tauto
  · rw [close_eq_self hdash] at h
    exact .inl h

/-- What follows the end of a range stays. -/
theorem closing_append_cons (h : field.Separates c) :
    field.closing left (right ++ c :: text) = field.closing left right ++ c :: text := by
  unfold closing
  split
  · rename_i hcloses
    have hsunday : c ∉ ['S', 'U', 'N'] := by
      rw [hcloses.1] at h
      exact h ⟨'S', 'U', 'N', 0⟩ List.mem_cons_self
    rw [isPrefixOf?_append_cons hsunday]
    cases ['S', 'U', 'N'].isPrefixOf? right with
    | none => rfl
    | some rest => rfl
  · rfl

/-- An element with its names replaced by their numbers. -/
def resolve (field : Field) (element : List Char) : List Char :=
  field.renumber (field.close element)

theorem resolve_eq_renumber (h : '-' ∉ text) : field.resolve text = field.renumber text := by
  rw [resolve, close_eq_self h]

theorem resolve_append_dash (h : '-' ∉ left) :
    field.resolve (left ++ '-' :: right) =
      field.renumber left ++ '-' :: field.renumber (field.closing left right) := by
  rw [resolve, close_append_cons h, renumber_append_cons field.separates_dash]

/-- A separator after the dash of an element, or in one without a dash, cuts the element. -/
theorem resolve_append_cons (h : field.Separates c) (hc : c ≠ '-')
    (hdash : '-' ∈ left ∨ '-' ∉ right) :
    field.resolve (left ++ c :: right) = field.resolve left ++ c :: field.renumber right := by
  by_cases hleft : '-' ∈ left
  · obtain ⟨first, last, rfl, hfirst⟩ := List.eq_append_cons_of_mem hleft
    rw [resolve_append_dash hfirst, List.append_assoc, List.cons_append,
      resolve_append_dash hfirst, closing_append_cons h, renumber_append_cons h,
      List.append_assoc, List.cons_append]
  · have hright := hdash.resolve_left hleft
    have hnone : '-' ∉ left ++ c :: right := by
      rw [List.mem_append, List.mem_cons]
      rintro (hmem | heq | hmem)
      · exact hleft hmem
      · exact hc heq.symm
      · exact hright hmem
    rw [resolve_eq_renumber hnone, resolve_eq_renumber hleft, renumber_append_cons h]

theorem mem_resolve_of_mem (h : field.Separates c) (hmem : c ∈ text) : c ∈ field.resolve text := by
  by_cases hdash : '-' ∈ text
  · obtain ⟨left, right, rfl, hleft⟩ := List.eq_append_cons_of_mem hdash
    rw [resolve_append_dash hleft]
    rcases List.mem_append.mp hmem with hmem | hmem
    · exact List.mem_append_left _ (mem_renumber_of_mem h hmem)
    · refine List.mem_append_right _ (List.mem_cons.mpr ?_)
      refine (List.mem_cons.mp hmem).imp_right fun hmem => mem_renumber_of_mem h ?_
      rcases field.closing_eq left right with heq | ⟨rfl, -, rest, rfl, heq⟩
      · rwa [heq]
      · rw [heq]
        have hsunday := h ⟨'S', 'U', 'N', 0⟩ List.mem_cons_self
        simp only [Alias.letters, List.mem_cons, List.not_mem_nil, or_false, not_or] at hsunday
        simp only [List.mem_cons, hsunday, false_or] at hmem
        exact List.mem_cons_of_mem _ hmem
  · rw [resolve_eq_renumber hdash]
    exact mem_renumber_of_mem h hmem

/-- Closing a range changes a 0 alone. -/
theorem mem_resolve_of_mem_renumber (h : c ∈ field.renumber text) :
    c ∈ field.resolve text ∨ c = '0' := by
  by_cases hdash : '-' ∈ text
  · obtain ⟨left, right, rfl, hleft⟩ := List.eq_append_cons_of_mem hdash
    rw [resolve_append_dash hleft, List.mem_append, List.mem_cons]
    rw [renumber_append_cons field.separates_dash, List.mem_append, List.mem_cons] at h
    rcases field.closing_eq left right with heq | ⟨rfl, -, rest, rfl, heq⟩
    · rw [heq]
      exact .inl h
    · have hzero : dayOfWeek.renumber ('S' :: 'U' :: 'N' :: rest) =
          '0' :: dayOfWeek.renumber rest := by
        -- the name is replaced first, and no other name holds the digit
        have hothers : ∀ name ∈ weekdayAliases.tail, '0' ∉ name.letters := by decide
        exact @foldl_append_cons [] _ _ _ hothers
      rw [heq, renumber_cons (show dayOfWeek.Separates '7' by decide), List.mem_cons]
      rw [hzero, List.mem_cons] at h
      tauto
  · rw [resolve_eq_renumber hdash]
    exact .inl h

theorem mem_of_mem_resolve (hdigit : c.isDigit = false) (h : c ∈ field.resolve text) :
    c ∈ text := by
  rcases mem_renumber h with hmem | hmem
  · rcases mem_close hmem with hmem | rfl
    · exact hmem
    · cases hdigit
  · rw [hdigit] at hmem
    cases hmem

theorem eq_star_of_resolve (h : field.resolve text = ['*']) : text = ['*'] := by
  have hdash : '-' ∉ text := by
    intro hmem
    obtain ⟨left, right, rfl, hleft⟩ := List.eq_append_cons_of_mem hmem
    rw [resolve_append_dash hleft] at h
    have hin : '-' ∈ ['*'] := h ▸ List.mem_append_right _ List.mem_cons_self
    exact absurd hin (by decide)
  rw [resolve_eq_renumber hdash] at h
  exact eq_singleton_of_renumber (by decide) h

/-- A cut of a resolved element is one of the element, when no dash follows it. -/
theorem exists_cut_of_resolve (h : field.Separates c) (hc : c ≠ '-') (hdigit : c.isDigit = false)
    (hleft : c ∉ left) (hright : '-' ∉ right) (heq : field.resolve text = left ++ c :: right) :
    ∃ first last, text = first ++ c :: last ∧ field.resolve first = left ∧
      field.renumber last = right := by
  have hmem : c ∈ text :=
    mem_of_mem_resolve hdigit (heq ▸ List.mem_append_right _ List.mem_cons_self)
  obtain ⟨first, last, rfl, hfirst⟩ := List.eq_append_cons_of_mem hmem
  refine ⟨first, last, rfl, ?_⟩
  by_cases hdash : '-' ∈ first ∨ '-' ∉ last
  · rw [resolve_append_cons h hc hdash] at heq
    exact append_cons_inj (fun hmem => hfirst (mem_of_mem_resolve hdigit hmem)) hleft heq
  · -- the dash of the element would come after the cut
    rw [not_or, not_not] at hdash
    obtain ⟨middle, rest, rfl, hmiddle⟩ := List.eq_append_cons_of_mem hdash.2
    have hfront : '-' ∉ first ++ c :: middle := by
      rw [List.mem_append, List.mem_cons]
      rintro (hmem | hdash' | hmem)
      · exact hdash.1 hmem
      · exact hc hdash'.symm
      · exact hmiddle hmem
    rw [show first ++ c :: (middle ++ '-' :: rest) = (first ++ c :: middle) ++ '-' :: rest by simp,
      resolve_append_dash hfront, renumber_append_cons h, List.append_assoc,
      List.cons_append] at heq
    have hsides := append_cons_inj (not_mem_renumber hdigit hfirst) hleft heq
    exact absurd (hsides.2 ▸ List.mem_append_right _ List.mem_cons_self) hright

theorem replaceAliases_eq (field : Field) (token : List Char) :
    field.replaceAliases token =
      field.renumber ([','].intercalate ((token.splitOn ',').map field.close)) := by
  by_cases hfield : field = .dayOfWeek
  · subst hfield
    rfl
  · have hclose : field.close = id := by
      funext element
      exact if_neg hfield
    rw [hclose, List.map_id, List.intercalate_splitOn, replaceAliases, if_neg hfield, renumber]

theorem splitOn_renumber (field : Field) (text : List Char) :
    (field.renumber text).splitOn ',' = (text.splitOn ',').map field.renumber :=
  splitOn_map (fun _ _ => renumber_append_cons field.separates_comma)
    (fun _ => not_mem_renumber (by decide)) text

/-- The elements of a token have their names replaced one by one. -/
theorem splitOn_replaceAliases (field : Field) (token : List Char) :
    (field.replaceAliases token).splitOn ',' =
      (token.splitOn ',').map field.resolve := by
  have hpieces : ∀ piece ∈ (token.splitOn ',').map field.close, ',' ∉ piece := by
    intro piece hpiece hcomma
    obtain ⟨element, helement, rfl⟩ := List.mem_map.mp hpiece
    rcases mem_close hcomma with hmem | heq
    · exact not_mem_of_mem_splitOn helement hmem
    · exact absurd heq (by decide)
  have hne : (token.splitOn ',').map field.close ≠ [] := by
    simp [List.splitOn_ne_nil]
  rw [replaceAliases_eq, splitOn_renumber, List.splitOn_intercalate ',' hpieces hne, List.map_map]
  rfl

/-- Where no name occurs there is nothing to replace. -/
theorem replaceAliases_eq_self (h : ∀ name ∈ field.aliases, ¬ name.letters <:+: token) :
    field.replaceAliases token = token := by
  have hclose : ∀ element ∈ token.splitOn ',', field.close element = element := by
    intro element helement
    by_cases hfield : field = .dayOfWeek
    · subst hfield
      have hsunday : ¬ ['S', 'U', 'N'] <:+: element := fun hin =>
        h ⟨'S', 'U', 'N', 0⟩ List.mem_cons_self (hin.trans (infix_of_mem_splitOn helement))
      exact close_eq_self_of_not_infix hsunday
    · exact if_neg hfield
  rw [replaceAliases_eq, List.map_congr_left hclose, List.map_id', List.intercalate_splitOn]
  exact renumber_eq_self h

end Field
end CronSchedule
