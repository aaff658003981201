/-! # Decimal numerals

The numbers of a schedule are read from decimal digits, with any leading zeros and
one optional plus sign, up to a limit that depends on the place.
-/
namespace CronSchedule.Text

/-- The largest number a field, a step or a weekday count may be written as. -/
def byteLimit : Nat := 255

/-- The largest number that is looked up in a table of names. -/
def wordLimit : Nat := Nat.pow 2 64 - 1

/-- The number written by a nonempty run of decimal digits. -/
def digits? (text : List Char) : Option Nat :=
  if text ≠ [] ∧ text.all Char.isDigit then some (Nat.ofDigitChars 10 text 0) else none

/-- The number written by digits after one optional plus sign. -/
def numeral? : List Char → Option Nat
  | '+' :: text => digits? text
  | text => digits? text

/-- The number written in the text, if it is at most the limit. -/
def numeralUpTo? (limit : Nat) (text : List Char) : Option Nat :=
  (numeral? text).filter (· ≤ limit)

/-- The decimal digits of a number, without leading zeros. -/
def decimal (n : Nat) : List Char := Nat.toDigits 10 n

@[simp] theorem digits?_nil : digits? [] = none := rfl

theorem decimal_ne_nil (n : Nat) : decimal n ≠ [] := by
  simp [decimal]

theorem isDigit_of_mem_decimal {c : Char} {n : Nat} (h : c ∈ decimal n) : c.isDigit = true :=
  Nat.isDigit_of_mem_toDigits (by decide) (by decide) h

/-- Reading the decimal digits of a number gives the number back. -/
theorem digits?_decimal (n : Nat) : digits? (decimal n) = some n := by
  have hd : (decimal n).all Char.isDigit = true :=
    List.all_eq_true.mpr fun _ => isDigit_of_mem_decimal
  rw [digits?, if_pos ⟨decimal_ne_nil n, hd⟩, decimal,
    Nat.ofDigitChars_toDigits (by decide) (by decide)]

theorem decimal_inj {m n : Nat} (h : decimal m = decimal n) : m = n := by
  have hdigits := digits?_decimal m
  rw [h, digits?_decimal n, Option.some.injEq] at hdigits
  exact hdigits.symm

end CronSchedule.Text
