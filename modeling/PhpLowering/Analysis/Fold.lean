import PhpLowering.Literal.Arithmetic
import PhpLowering.Tree.Expr

/-!
# Operators on known values

What an operator yields when its operands are known, or nothing where the operator has to
run: printing has an effect, a clone needs an object, and some values have no complement.
-/

namespace PhpLowering

/-- The value of a binary operator. -/
def BinaryOp.fold (op : BinaryOp) (left right : Literal) : Literal :=
  match op with
  | .add => left.add right
  | .sub => left.sub right
  | .mul => left.mul right
  | .identical => .bool (left.identical right)
  | .notIdentical => .bool !(left.identical right)
  | .lessThan => .bool (left.lessThan right)
  | .greaterThan => .bool (right.lessThan left)

/-- The value of a unary operator, if it can be known ahead of time. -/
def UnaryOp.fold (op : UnaryOp) (v : Literal) : Option Literal :=
  match op with
  | .plus => some v.plus
  | .minus => some v.negate
  | .logicNot => some (.bool !v.toBool)
  | .bitNot => v.bitNot
  | .silence => some v
  | .intCast => some (.ofInt64 v.toInt64)
  | .doubleCast => some (.double v.toFloat)
  | .stringCast => some (.string v.toText)
  | .binaryCast => some (.bytes v.toBytes)
  | .boolCast => some (.bool v.toBool)
  | .unsetCast => some .null
  | .print | .clone => none

end PhpLowering
