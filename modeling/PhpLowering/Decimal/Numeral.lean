import PhpLowering.Decimal.Binary

/-!
# Numerals

The two grammars by which a text as a whole is a number.

* An integer numeral is an optional sign and at least one digit, and its value has to
  fit into 64 bits.
* A float numeral is an optional sign followed by `inf`, `infinity` or `nan` in any
  case, or by digits with at most one point among them (at least one digit on either
  side) and an optional exponent.

Only ASCII digits count.
-/

namespace PhpLowering
namespace Decimal

/-- The value of an ASCII digit. -/
def digitValue (c : Char) : Nat :=
  c.toNat - '0'.toNat

/-- The number that a row of digits spells. -/
def natOfDigits (digits : List Char) : Nat :=
  digits.foldl (fun n c => 10 * n + digitValue c) 0

/-- Splits off an optional sign; the answer's first part tells whether it is a minus. -/
def splitSign : List Char → Bool × List Char
  | '-' :: rest => (true, rest)
  | '+' :: rest => (false, rest)
  | chars => (false, chars)

/-- An integer as a 64-bit one, if it fits. -/
def fitInt64 (n : Int) : Option Int64 :=
  if Int64.minValue.toInt ≤ n ∧ n ≤ Int64.maxValue.toInt then some (Int64.ofInt n) else none

/-- The value of an integer numeral. -/
def integer? (chars : List Char) : Option Int64 :=
  let (negative, digits) := splitSign chars
  if digits.isEmpty || !digits.all Char.isDigit then none
  else
    let n := Int.ofNat (natOfDigits digits)
    fitInt64 (if negative then -n else n)

/-- The digits in front, and the rest. -/
def spanDigits (chars : List Char) : List Char × List Char :=
  (chars.takeWhile Char.isDigit, chars.dropWhile Char.isDigit)

/-- The exponent that a float numeral ends with; a numeral without one has the exponent 0. -/
def exponent? : List Char → Option Int
  | [] => some 0
  | mark :: rest =>
    if mark = 'e' ∨ mark = 'E' then
      let (negative, digits) := splitSign rest
      if digits.isEmpty || !digits.all Char.isDigit then none
      else
        let n := Int.ofNat (natOfDigits digits)
        some (if negative then -n else n)
    else none

/-- The double nearest to `± significand · 10^exponent`.  Beyond four hundred places the answer is
infinite or zero whatever the digits are, so no power of ten grows out of hand. -/
def ofScaled (negative : Bool) (significand : Nat) (exponent : Int) : Float :=
  let size := Int.ofNat (Nat.toDigits 10 significand).length + exponent
  if significand = 0 ∨ size < -400 then nearest negative 0 1
  else if 400 < size then nearest negative (Nat.pow 10 400) 1
  else if exponent < 0 then nearest negative significand (Nat.pow 10 (-exponent).toNat)
  else nearest negative (significand * Nat.pow 10 exponent.toNat) 1

/-- The words that stand for a number that is not finite. -/
def word? (negative : Bool) (chars : List Char) : Option Float :=
  let lowered := chars.map Char.toLower
  if lowered = ['i', 'n', 'f'] ∨ lowered = ['i', 'n', 'f', 'i', 'n', 'i', 't', 'y'] then
    some (Float.ofBits (UInt64.ofNat ((if negative then Nat.pow 2 63 else 0) + infinityBits)))
  else if lowered = ['n', 'a', 'n'] then some (Float.ofBits 0x7FF8000000000000)
  else none

/-- The value of a float numeral. -/
def float? (chars : List Char) : Option Float :=
  let (negative, body) := splitSign chars
  match word? negative body with
  | some x => some x
  | none =>
    let (whole, rest) := spanDigits body
    let (fraction, rest) :=
      match rest with
      | '.' :: rest => spanDigits rest
      | rest => ([], rest)
    if whole.isEmpty && fraction.isEmpty then none
    else
      (exponent? rest).map fun e =>
        ofScaled negative (natOfDigits (whole ++ fraction)) (e - Int.ofNat fraction.length)

end Decimal
end PhpLowering
