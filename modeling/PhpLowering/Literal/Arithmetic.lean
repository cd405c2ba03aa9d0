import PhpLowering.Literal.Conversion

/-!
# Operators on literal values

What folding computes.  Integer arithmetic is exact: a result that leaves 64 bits is
computed again in doubles.  A binary operand makes a concatenation binary.
-/

namespace PhpLowering
namespace Literal

/-- The string of two values in a row. -/
def concat (a b : Literal) : Literal :=
  match a, b with
  | .bytes _, _ | _, .bytes _ => .bytes (a.toBytes ++ b.toBytes)
  | _, _ => .string (a.toText ++ b.toText)

/-- An operator on numbers: on two integers the exact result if it fits, otherwise doubles. -/
def arithmetic (exact : Int → Int → Int) (inexact : Float → Float → Float) (a b : Literal) :
    Literal :=
  match a.toNumeric, b.toNumeric with
  | .int x, .int y =>
    match Decimal.fitInt64 (exact x.toInt y.toInt) with
    | some n => ofInt64 n
    | none => .double (inexact x.toFloat y.toFloat)
  | x, y => .double (inexact x.toFloat y.toFloat)

/-- The operator `+`. -/
def add : Literal → Literal → Literal :=
  arithmetic (· + ·) (· + ·)

/-- The operator `-`. -/
def sub : Literal → Literal → Literal :=
  arithmetic (· - ·) (· - ·)

/-- The operator `*`. -/
def mul : Literal → Literal → Literal :=
  arithmetic (· * ·) (· * ·)

/-- The unary `-`; the least integer has no opposite and becomes a double. -/
def negate (v : Literal) : Literal :=
  match v.toNumeric with
  | .int n =>
    match Decimal.fitInt64 (-n.toInt) with
    | some m => ofInt64 m
    | none => .double (-n.toFloat)
  | .float x => .double (-x)

/-- The unary `+`, which is conversion to a number. -/
def plus (v : Literal) : Literal :=
  match v.toNumeric with
  | .int n => ofInt64 n
  | .float x => .double x

/-- The unary `~`: on numbers it flips the bits of the integer, on strings those of every byte, and
on the other values it is left to run time. -/
def bitNot : Literal → Option Literal
  | .string text => some (.bytes ((Text.Utf8.encode text).map (~~~ ·)))
  | .bytes data => some (.bytes (data.map (~~~ ·)))
  | .null | .bool _ => none
  | number => some (ofInt64 (~~~ number.toInt64))

/-- The operator `===`: integers are compared by value and strings by their bytes, whatever their
representation. -/
def identical : Literal → Literal → Bool
  | .int a, .int b => a == b
  | .int a, .long b => a.toInt64 == b
  | .long a, .int b => a == b.toInt64
  | .string a, .bytes b => Text.Utf8.encode a == b
  | .bytes a, .string b => a == Text.Utf8.encode b
  | a, b => a == b

/-- Whether a value is a string of either representation. -/
def isString : Literal → Bool
  | .string _ | .bytes _ => true
  | _ => false

/-- Whether a value takes part in comparisons by its truth. -/
def isTruthValue : Literal → Bool
  | .null | .bool _ => true
  | _ => false

/-- The order of byte strings: the first difference decides, and a proper beginning comes first. -/
def bytesLess : List UInt8 → List UInt8 → Bool
  | _, [] => false
  | [], _ :: _ => true
  | a :: as, b :: bs => if a = b then bytesLess as bs else a < b

/-- The operator `<`: two strings that are not both numbers are compared as bytes, a truth value
turns both sides into truth values, and all else is compared as numbers. -/
def lessThan (a b : Literal) : Bool :=
  if a.isString && b.isString && !(NumericText.isWhole a.toBytes && NumericText.isWhole b.toBytes) then
    bytesLess a.toBytes b.toBytes
  else if a.isTruthValue || b.isTruthValue then
    !a.toBool && b.toBool
  else
    match a.toNumeric, b.toNumeric with
    | .int x, .int y => x < y
    | x, y => x.toFloat < y.toFloat

end Literal
end PhpLowering
