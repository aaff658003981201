import CronSchedule.Text.Numeral

/-! # Shortest decimals

The text of a floating point number has the fewest digits that still round to it.  The
number is taken apart into an integer times a power of two, together with the interval of
reals that round to it; grids of one to seventeen digits are tried until one of the two
neighbours of the number on the grid lies in the interval.  All arithmetic is exact.
-/
namespace CronSchedule.Decimal

open Text

/-- A positive number `mantissa * 2 ^ exponent` of a binary format. -/
structure Binary where
  mantissa : Nat
  exponent : Int
  /-- Whether the gap to the next smaller number is half the gap to the next larger one. -/
  nearPower : Bool

namespace Binary

/-- The positive number with the given exponent and fraction bits. -/
def ofFields (biased fraction : Nat) : Binary :=
  -- the smallest numbers have no leading bit besides the fraction
  if biased = 0 then ⟨fraction, -1074, false⟩
  else ⟨Nat.pow 2 52 + fraction, (biased : Int) - 1075, fraction == 0 && biased != 1⟩

variable (b : Binary)

/-- The number and the grid step `10 ^ place` over a common unit, the number in quarters of
the last binary place. -/
def scales (place : Int) : Nat × Nat :=
  (Nat.pow 2 (b.exponent - 2).toNat * Nat.pow 10 (-place).toNat,
    Nat.pow 2 (2 - b.exponent).toNat * Nat.pow 10 place.toNat)

/-- Whether `n * 10 ^ place` rounds to the number.  The ends of the interval do when the
mantissa is even. -/
def roundsTo (place : Int) (n : Nat) : Bool :=
  let (unit, step) := b.scales place
  let low := (4 * b.mantissa - if b.nearPower then 1 else 2) * unit
  let high := (4 * b.mantissa + 2) * unit
  if b.mantissa % 2 = 0 then low ≤ n * step && n * step ≤ high
  else low < n * step && n * step < high

/-- The neighbour of the number on the grid of a place that rounds to it, the nearer of two
and the even one of two that are equally near. -/
def onGrid? (place : Int) : Option (Nat × Int) :=
  let (unit, step) := b.scales place
  let below := 4 * b.mantissa * unit / step
  let excess := 2 * (4 * b.mantissa * unit % step)
  let upperFirst := step < excess ∨ step = excess ∧ below % 2 = 1
  let neighbours := if upperFirst then [below + 1, below] else [below, below + 1]
  (neighbours.find? (b.roundsTo place)).map (·, place)

/-- The place of the leading digit. -/
def leadingPlace : Int :=
  let (number, one) := b.scales 0
  let number := 4 * b.mantissa * number
  if one ≤ number then (decimal (number / one)).length - 1
  else -(decimal ((one + number - 1) / number - 1)).length

/-- The fewest digits that round to the number, and the place of the last of them. -/
def shortest : Nat × Int :=
  let found := (List.range 17).findSome? fun i => b.onGrid? (b.leadingPlace - (i : Nat))
  let (n, place) := found.getD (b.mantissa, b.exponent)
  -- rounding up can end in a zero, which the place before does not need
  if n % 10 = 0 then (n / 10, place + 1) else (n, place)

end Binary
end CronSchedule.Decimal
