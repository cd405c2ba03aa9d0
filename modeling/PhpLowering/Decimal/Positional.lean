import PhpLowering.Decimal.Shortest

/-!
# Doubles in positional notation

The text of a double is its shortest decimal written out in full: there is never an
exponent, only as many zeros as it takes, and no point after a whole number.  A zero
keeps its sign.
-/

namespace PhpLowering
namespace Decimal

/-- A decimal written out without an exponent. -/
def Scaled.positional (d : Scaled) : List Char :=
  let digits := Nat.toDigits 10 d.significand
  if 0 ≤ d.exponent then digits ++ List.replicate d.exponent.toNat '0'
  else
    let places := (-d.exponent).toNat
    if places < digits.length then
      digits.take (digits.length - places) ++ '.' :: digits.drop (digits.length - places)
    else '0' :: '.' :: List.replicate (places - digits.length) '0' ++ digits

/-- The text of a double. -/
def floatText (x : Float) : String :=
  match Reading.of x with
  | .nan => "NAN"
  | .infinite negative => if negative then "-INF" else "INF"
  | .finite negative m q =>
    let digits := if m = 0 then ['0'] else (shortest m q).positional
    String.ofList (if negative then '-' :: digits else digits)

end Decimal
end PhpLowering
