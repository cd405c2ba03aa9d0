import PhpLowering.Decimal.Binary

/-!
# The shortest decimal that reads back

A double stands for all the reals that round to it.  Among the decimals in that
interval this module picks one with the fewest digits, and of those the one nearest
to the double; if two are equally near, the larger.

The search goes through the grids of 1, 2, … 17 significant digits.  If a grid has a
point in the interval at all, then one of the double's two neighbours on the grid is in
it, so two tests for each grid are enough, and 17 digits always suffice.  All tests
compare products of natural numbers.
-/

namespace PhpLowering
namespace Decimal

/-- The decimal `significand · 10^exponent`. -/
structure Scaled where
  significand : Nat
  exponent : Int
  deriving DecidableEq, Repr

/-- The number of decimal digits of a positive number. -/
def digitCount (n : Nat) : Nat :=
  (Nat.toDigits 10 n).length

/-- The fraction `num / den` divided by `10^k`, again as a fraction. -/
def shiftDown (num den : Nat) (k : Int) : Nat × Nat :=
  if k < 0 then (num * Nat.pow 10 (-k).toNat, den) else (num, den * Nat.pow 10 k.toNat)

/-- The power `p` with `10^(p-1) ≤ num / den < 10^p`. -/
def magnitude (num den : Nat) : Int :=
  if den ≤ num then Int.ofNat (digitCount (num / den))
  else 1 - Int.ofNat (digitCount ((den - 1) / num))

/-- The reals that round to a double: the ends of the interval, as numerators over a common
denominator, and whether the ends belong to it. -/
structure Interval where
  low : Nat
  value : Nat
  high : Nat
  den : Nat
  closed : Bool

/-- The interval of `m · 2^q`.  Below a power of two the doubles lie twice as dense, so there the
lower half is only half as wide.  The ends round to `m` exactly when it is even. -/
def Interval.of (m : Nat) (q : Int) : Interval :=
  let low := if m = Nat.pow 2 52 then 4 * m - 1 else 4 * m - 2
  let (scale, den) := if q < 2 then (1, Nat.pow 2 (2 - q).toNat) else (Nat.pow 2 (q - 2).toNat, 1)
  { low := low * scale, value := 4 * m * scale, high := (4 * m + 2) * scale, den,
    closed := m % 2 == 0 }

/-- Whether `c · 10^k` lies in the interval. -/
def Interval.holds (i : Interval) (c : Nat) (k : Int) : Bool :=
  let (p, r) := if k < 0 then (1, Nat.pow 10 (-k).toNat) else (Nat.pow 10 k.toNat, 1)
  let point := c * p * i.den
  if i.closed then i.low * r ≤ point && point ≤ i.high * r
  else i.low * r < point && point < i.high * r

/-- The point of the grid of `n` digits that stands for the interval, if one is in it.  A point
that reaches the next power of ten is written with one digit. -/
def Interval.onGrid? (i : Interval) (n : Nat) : Option Scaled :=
  let k := magnitude i.value i.den - Int.ofNat n
  let (num, den) := shiftDown i.value i.den k
  let below := num / den
  let pick (c : Nat) : Scaled := if c = Nat.pow 10 n then ⟨1, k + Int.ofNat n⟩ else ⟨c, k⟩
  match i.holds below k, i.holds (below + 1) k with
  | true, true => some (pick (if 2 * (num % den) < den then below else below + 1))
  | true, false => some (pick below)
  | false, true => some (pick (below + 1))
  | false, false => none

/-- The shortest decimal for a positive `m · 2^q`.  The grid of 17 digits is always fine enough,
so the default is never taken. -/
def shortest (m : Nat) (q : Int) : Scaled :=
  ((List.range' 1 17).findSome? (Interval.of m q).onGrid?).getD ⟨0, 0⟩

end Decimal
end PhpLowering
