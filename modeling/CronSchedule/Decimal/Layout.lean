import CronSchedule.Decimal.Shortest

/-! # Layout of decimals

The text of a floating point number: its shortest digits, with a point among them, or with
a point after the first of them and an exponent when the leading digit stands far from the
point.  A number without an exponent always shows a digit on both sides of its point.
-/
namespace CronSchedule.Decimal

open Text

/-- The lowest place at which the leading digit is written without an exponent. -/
def lowestPlain : Int := -5

/-- The highest place at which the leading digit is written without an exponent. -/
def highestPlain : Int := 15

/-- Digits that end at a place, with a point and at least one digit on both sides of it. -/
def positional (digits : List Char) (place : Int) : List Char :=
  if 0 ≤ place then digits ++ List.replicate place.toNat '0' ++ ['.', '0']
  else
    let behind := (-place).toNat
    let padded := List.replicate (behind + 1 - digits.length) '0' ++ digits
    padded.take (padded.length - behind) ++ '.' :: padded.drop (padded.length - behind)

/-- Digits with a point after the first, unless it stands alone, and the place of the first
as a signed exponent. -/
def scientific (digits : List Char) (leading : Int) : List Char :=
  let fraction := if digits.length ≤ 1 then [] else '.' :: digits.tail
  digits.take 1 ++ fraction ++ ['e', if leading < 0 then '-' else '+'] ++
    decimal leading.natAbs

/-- A positive number `n * 10 ^ place` as text. -/
def layout (n : Nat) (place : Int) : List Char :=
  let digits := decimal n
  let leading := place + digits.length - 1
  if lowestPlain ≤ leading ∧ leading ≤ highestPlain then positional digits place
  else scientific digits leading

/-- The text of a floating point number. -/
def text (x : Float) : String :=
  let bits := x.toBits.toNat
  let sign := if bits / Nat.pow 2 63 = 1 then "-" else ""
  let biased := bits / Nat.pow 2 52 % Nat.pow 2 11
  let fraction := bits % Nat.pow 2 52
  if biased = 2047 then if fraction = 0 then sign ++ "inf" else "NaN"
  else if biased = 0 ∧ fraction = 0 then sign ++ "0.0"
  else
    let (n, place) := (Binary.ofFields biased fraction).shortest
    sign ++ String.ofList (layout n place)

end CronSchedule.Decimal
