import PhpLowering.Literal.Basic

/-!
# What stands on the operand stack

The code of an expression answers with a type code: the representation of the value that
it leaves on the operand stack.  Consumers compare it with what they need and insert a
conversion where the two differ.
-/

namespace PhpLowering

/-- The representation of a value on the operand stack. -/
inductive TypeCode where
  /-- No value at all. -/
  | void
  /-- The general, boxed representation. -/
  | object
  | string | bytes | integer | longInteger | double | boolean
  | arrayHandle | referenceCell
  | unknown
  deriving DecidableEq, Repr, Inhabited

namespace TypeCode

/-- Every type code. -/
def all : List TypeCode :=
  [.void, .object, .string, .bytes, .integer, .longInteger, .double, .boolean, .arrayHandle,
   .referenceCell, .unknown]

/-- The representation in which a literal is pushed. -/
def ofLiteral : Literal → TypeCode
  | .null => .object
  | .bool _ => .boolean
  | .int _ => .integer
  | .long _ => .longInteger
  | .double _ => .double
  | .string _ => .string
  | .bytes _ => .bytes

/-- Whether a value has to be boxed before general use. -/
def isPrimitive : TypeCode → Bool
  | .boolean | .integer | .longInteger | .double => true
  | _ => false

/-- Whether there is a value on the stack. -/
def isValue : TypeCode → Bool
  | .void | .unknown => false
  | _ => true

/-- Whether a value may be an array, which is copied when it is stored elsewhere. -/
def mayBeArray : TypeCode → Bool
  | .object | .arrayHandle | .unknown => true
  | _ => false

/-- The name of a type code in listings and messages. -/
def text : TypeCode → String
  | .void => "void"
  | .object => "object"
  | .string => "string"
  | .bytes => "bytes"
  | .integer => "int32"
  | .longInteger => "int64"
  | .double => "double"
  | .boolean => "bool"
  | .arrayHandle => "array"
  | .referenceCell => "reference"
  | .unknown => "unknown"

/-- The name of a type code among the type codes. -/
def name : TypeCode → String
  | .void => "Void"
  | .object => "Object"
  | .string => "String"
  | .bytes => "Bytes"
  | .integer => "Integer"
  | .longInteger => "LongInteger"
  | .double => "Double"
  | .boolean => "Boolean"
  | .arrayHandle => "ArrayHandle"
  | .referenceCell => "ReferenceCell"
  | .unknown => "Unknown"

end TypeCode
end PhpLowering
