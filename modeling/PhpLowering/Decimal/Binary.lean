/-!
# Doubles as exact numbers

A finite double is `± m · 2^q` for a natural number `m` below `2^53`.  This module
goes both ways without any floating-point operation: `Reading.of` takes a double apart
into its sign, `m` and `q`, and `nearest` finds the double closest to a quotient of
natural numbers, an exact half going to the even neighbour.  Everything that reads or
writes decimal numbers is built on these two, so it is exact by construction.
-/

namespace PhpLowering
namespace Decimal

/-- A double taken apart. -/
inductive Reading where
  /-- No number. -/
  | nan
  /-- An infinity. -/
  | infinite (negative : Bool)
  /-- The number `± significand · 2^exponent`. -/
  | finite (negative : Bool) (significand : Nat) (exponent : Int)
  deriving DecidableEq, Repr

/-- The exponent of the smallest positive double. -/
def minExponent : Int := -1074

/-- What the 64 bits of a double say. -/
def Reading.ofBits (bits : Nat) : Reading :=
  let negative := bits / Nat.pow 2 63 % 2 == 1
  let biased := bits / Nat.pow 2 52 % 2048
  let fraction := bits % Nat.pow 2 52
  if biased = 2047 then
    if fraction = 0 then .infinite negative else .nan
  else if biased = 0 then .finite negative fraction minExponent
  else .finite negative (Nat.pow 2 52 + fraction) (Int.ofNat biased - 1075)

/-- A double taken apart. -/
def Reading.of (x : Float) : Reading :=
  .ofBits x.toBits.toNat

/-- The fraction `num / den` divided by `2^q`, again as a fraction. -/
def scaleDown (num den : Nat) (q : Int) : Nat × Nat :=
  if q < 0 then (num * Nat.pow 2 (-q).toNat, den) else (num, den * Nat.pow 2 q.toNat)

/-- A quotient of natural numbers rounded to the nearest one, halves to the even one. -/
def roundHalfEven (num den : Nat) : Nat :=
  let quotient := num / den
  let remainder := num % den
  if 2 * remainder > den ∨ (2 * remainder = den ∧ quotient % 2 = 1) then quotient + 1 else quotient

/-- The exponent `q` at which `num / den / 2^q` has 53 binary digits before the point, but no
less than `minExponent`.  The difference of the two logarithms misses it by one at most. -/
def exponentFor (num den : Nat) : Int :=
  let guess := Int.ofNat num.log2 - Int.ofNat den.log2 - 52
  let (n, d) := scaleDown num den guess
  max minExponent (if n / d < Nat.pow 2 52 then guess - 1 else guess)

/-- The bits of the positive infinity, which no finite double reaches. -/
def infinityBits : Nat := 2047 * Nat.pow 2 52

/-- The bits of the double nearest to `num / den`.  A significand that rounds up to `2^53`
carries into the exponent field by itself. -/
def nearestBits (num den : Nat) : Nat :=
  if num = 0 then 0
  else
    let q := exponentFor num den
    let (n, d) := scaleDown num den q
    let m := roundHalfEven n d
    if m < Nat.pow 2 52 then m
    else min infinityBits ((q + 1075).toNat * Nat.pow 2 52 + (m - Nat.pow 2 52))

/-- The double nearest to `± num / den`. -/
def nearest (negative : Bool) (num den : Nat) : Float :=
  let bits := nearestBits num den
  Float.ofBits (UInt64.ofNat (if negative then Nat.pow 2 63 + bits else bits))

end Decimal
end PhpLowering
