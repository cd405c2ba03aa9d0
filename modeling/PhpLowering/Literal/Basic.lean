/-!
# Literal values

The values that the lowering knows at compile time.  Only what a literal can hold is
here: no arrays, no objects, no references, so folding an expression can never produce
one.

Integers come in two widths because emitted code keeps small ones in 32 bits; in the
source language they are one type.  `Literal.ofInt64` is the rule that decides: the
narrow form whenever the number fits.  Strings come as text or as bytes, the latter for
binary literals and for everything computed from them.

The test `==` compares representations: the constructors have to agree, a NaN differs
from itself, and the two zeros are equal.  The comparison of the source language is
`Literal.identical`.
-/

namespace PhpLowering

/-- A value known at compile time. -/
inductive Literal where
  | null
  | bool (value : Bool)
  | int (value : Int32)
  | long (value : Int64)
  | double (value : Float)
  | string (text : String)
  | bytes (data : List UInt8)
  deriving BEq, Inhabited

namespace Literal

/-- An integer in the narrowest form that holds it. -/
def ofInt64 (n : Int64) : Literal :=
  if Int32.minValue.toInt ≤ n.toInt ∧ n.toInt ≤ Int32.maxValue.toInt then
    .int (Int32.ofInt n.toInt)
  else .long n

/-- The name of the type that the source language gives a value. -/
def typeName : Literal → String
  | .null => "null"
  | .bool _ => "bool"
  | .int _ | .long _ => "int"
  | .double _ => "float"
  | .string _ => "string"
  | .bytes _ => "binary string"

/-- Whether a value is an integer of either width. -/
def isInteger : Literal → Bool
  | .int _ | .long _ => true
  | _ => false

/-- Whether concatenating a value changes nothing. -/
def isEmptyText : Literal → Bool
  | .null => true
  | .bool b => !b
  | .string text => text.isEmpty
  | .bytes data => data.isEmpty
  | _ => false

end Literal
end PhpLowering
